import Mathlib.Logic.Function.Basic
import Xv6K210.Base.BitSet

/-!
# Signals of one process

Source `kernel/proc/signal.c`, `kernel/include/signal.h`, and the fields of
`struct proc` (`kernel/include/proc.h:107–157`) that signals, traps and sleeping use. Every
function here reads and writes the record of one process, under its lock. The pages of a process
are known by the result of `walk`, which the check of a handler address reads.
-/

namespace Xv6K210.Signal

open Xv6K210.Base

/-- A register, an address or a system call result. -/
abbrev Word := BitVec 64

/-- `enum procstate`. -/
inductive ProcState where
  | unused
  | sleeping
  | runnable
  | running
  | zombie
  deriving DecidableEq, Repr

/-- The registers that `uservec` saves and `userret` restores (`trampoline.S`). -/
inductive Reg where
  | ra | sp | gp | tp
  | t0 | t1 | t2
  | s0 | s1
  | a0 | a1 | a2 | a3 | a4 | a5 | a6 | a7
  | s2 | s3 | s4 | s5 | s6 | s7 | s8 | s9 | s10 | s11
  | t3 | t4 | t5 | t6
  deriving DecidableEq, Repr

/-- `struct trapframe`. -/
structure Trapframe where
  kernelSatp : Word
  kernelSp : Word
  kernelTrap : Word
  epc : Word
  kernelHartid : Word
  regs : Reg → Word

namespace Trapframe

/-- A trap frame after `memset(.., 0, ..)`. -/
def zero : Trapframe where
  kernelSatp := 0
  kernelSp := 0
  kernelTrap := 0
  epc := 0
  kernelHartid := 0
  regs := fun _ ↦ 0

/-- The assignment of one saved register. -/
def setReg (f : Trapframe) (r : Reg) (v : Word) : Trapframe :=
  { f with regs := Function.update f.regs r v }

/-- A register write keeps the program counter. -/
@[simp] theorem setReg_epc (f : Trapframe) (r : Reg) (v : Word) : (f.setReg r v).epc = f.epc := rfl

/-- A register write changes that register. -/
@[simp] theorem setReg_regs (f : Trapframe) (r : Reg) (v : Word) :
    (f.setReg r v).regs = Function.update f.regs r v := rfl

/-- Storing what a register already holds changes nothing. -/
@[simp] theorem setReg_self (f : Trapframe) (r : Reg) : f.setReg r (f.regs r) = f := by
  simp [setReg]

end Trapframe

/-! ### Constants -/

/-- `NSIG`. -/
def NSIG : Int := 32

/-- `SIGKILL`. -/
def SIGKILL : Int := 9

/-- `SIGCHLD`. -/
def SIGCHLD : Int := 17

/-- `SIG_DFL`. -/
def SIG_DFL : Word := 0

/-- `SIG_IGN`. -/
def SIG_IGN : Word := 1

/-- `SIG_ERR`, the result of a refused `signal()`. -/
def SIG_ERR : Word := -1

/-- `MAXUVA` (`memlayout.h:123`). -/
def MAXUVA : Word := 0x80000000

/-- `SIGTRAMP`, two pages below `TRAMPOLINE` (`memlayout.h:132–148`). -/
def SIGTRAMP : Word := 0x3fffffd000

/-- `PTE_V | PTE_U | PTE_X`. -/
def PTE_VUX : Word := 0x19

/-- `signal_valid`. -/
def signalValid (signum : Int) : Bool := 0 < signum && signum < NSIG

/-- `signal_bit`. -/
def signalBit (signum : Int) : BitVec 32 := bit 32 signum.toNat

/-- The test of the bit of a signal in `sig_pending` or `sig_mask`. -/
def hasSignal (set : BitVec 32) (signum : Int) : Bool := hasBit set signum.toNat

/-- `signal_default_ignored`. -/
def signalDefaultIgnored (signum : Int) : Bool := signum == SIGCHLD

/-- A disposition that ignores the signal: `SIG_IGN`, or `SIG_DFL` where the default is to
ignore. The test stands three times in `signal.c`. -/
def ignored (handler : Word) (signum : Int) : Bool :=
  handler == SIG_IGN || (handler == SIG_DFL && signalDefaultIgnored signum)

/-! ### The record of a process -/

/-- What a process may sleep on: the record of a process (in `wait`), or another object. -/
inductive Chan (N : Nat) where
  | proc (i : Fin N)
  | obj (address : Nat)
  deriving DecidableEq, Repr

/-- Where a process is, on its way from user mode through `usertrap` and back. -/
inductive Loc (N : Nat) where
  /-- user code, with its registers and its program counter -/
  | user (regs : Reg → Word) (pc : Word)
  /-- in `syscall()`, before the call has a result -/
  | syscall
  /-- the call returned, `p->trapframe->a0` is not set yet -/
  | sysret (a0 : Word)
  /-- in the branches of `usertrap` for a page fault or an unexpected exception -/
  | fault
  /-- past these branches, before `signal_deliver` -/
  | tail
  /-- past `signal_deliver`, before `p->killed` is tested -/
  | delivered
  /-- in `exit(signal_exit_status(p))`, before the argument is computed -/
  | dying
  /-- before `usertrapret`; a new process starts here, in `forkret` -/
  | ret
  /-- in `exit(status)` -/
  | exiting (status : Int)
  /-- in `exit(status)`, past the copy of `p->parent` -/
  | leaving (status : Int) (originalParent : Fin N)
  /-- no kernel thread: unused or a zombie -/
  | gone

/-- The place, without what is known there. -/
inductive Phase where
  | user | syscall | sysret | fault | tail | delivered | dying | ret | exiting | leaving | gone
  deriving DecidableEq, Repr

/-- The place of a process, without what is known there. -/
def Loc.phase {N : Nat} : Loc N → Phase
  | .user _ _ => .user
  | .syscall => .syscall
  | .sysret _ => .sysret
  | .fault => .fault
  | .tail => .tail
  | .delivered => .delivered
  | .dying => .dying
  | .ret => .ret
  | .exiting _ => .exiting
  | .leaving _ _ => .leaving
  | .gone => .gone

/-- The fields of `struct proc` that only the functions of `signal.c` write. -/
structure Signals where
  sigPending : BitVec 32
  sigMask : BitVec 32
  sigHandlers : Int → Word
  sigHandling : Bool
  sigCurrent : Int
  sigTerm : Int
  sigSavedTrapframe : Trapframe

/-- `struct proc`. The fields `loc` and `slept` say where its kernel thread is: the latter that it
is in `sleep_on`, past the call of `sched`. -/
structure Proc (N : Nat) extends Signals where
  state : ProcState
  parent : Option (Fin N)
  chan : Option (Chan N)
  killed : Bool
  xstate : Int
  pid : Int
  pgid : Int
  /-- `walk(p->pagetable, va, 0)` -/
  walk : Word → Option Word
  trapframe : Trapframe
  interruptibleSleep : Bool
  loc : Loc N
  slept : Bool

namespace Proc

variable {N : Nat}

/-- An entry of the process table after the boot. -/
def zero : Proc N where
  state := .unused
  parent := none
  chan := none
  killed := false
  xstate := 0
  pid := 0
  pgid := 0
  walk := fun _ ↦ none
  trapframe := .zero
  sigPending := 0
  sigMask := 0
  sigHandlers := fun _ ↦ SIG_DFL
  sigHandling := false
  sigCurrent := 0
  sigTerm := 0
  interruptibleSleep := false
  sigSavedTrapframe := .zero
  loc := .gone
  slept := false

/-- `signal_handler_valid`. -/
def signalHandlerValid (p : Proc N) (handler : Word) : Bool :=
  if MAXUVA ≤ handler then false
  else
    match p.walk handler with
    | none => false
    | some pte => pte &&& PTE_VUX == PTE_VUX

/-- `signal_proc_init`. -/
def signalProcInit (p : Proc N) : Proc N :=
  { p with
    sigPending := 0
    sigMask := 0
    sigHandlers := fun _ ↦ 0
    sigHandling := false
    sigCurrent := 0
    sigTerm := 0
    interruptibleSleep := false
    sigSavedTrapframe := .zero }

/-- `signal_proc_fork`. -/
def signalProcFork (parent child : Proc N) : Proc N :=
  { child with
    sigPending := 0
    sigMask := parent.sigMask
    sigHandlers := parent.sigHandlers
    sigHandling := false
    sigCurrent := 0
    sigTerm := 0
    interruptibleSleep := false
    sigSavedTrapframe := .zero }

/-- `signal_reset_on_exec`. -/
def signalResetOnExec (p : Proc N) : Proc N :=
  { p with
    sigHandlers := fun signum ↦
      if 1 ≤ signum ∧ signum < NSIG ∧ p.sigHandlers signum ≠ SIG_IGN then SIG_DFL
      else p.sigHandlers signum
    sigPending := 0
    sigMask := 0
    sigHandling := false
    sigCurrent := 0
    sigTerm := 0
    sigSavedTrapframe := .zero }

/-- `signal_set_handler`, with its result. -/
def signalSetHandler (p : Proc N) (signum : Int) (handler : Word) : Proc N × Word :=
  if !signalValid signum then (p, SIG_ERR)
  else if signum = SIGKILL then (p, SIG_ERR)
  else if handler ≠ SIG_DFL ∧ handler ≠ SIG_IGN ∧ !p.signalHandlerValid handler then (p, SIG_ERR)
  else
    ({ p with
        sigHandlers := Function.update p.sigHandlers signum handler
        sigPending :=
          if ignored handler signum then p.sigPending &&& ~~~signalBit signum
          else p.sigPending },
      p.sigHandlers signum)

/-- `signal_mark_locked`. -/
def signalMarkLocked (p : Proc N) (signum : Int) : Proc N :=
  if ignored (p.sigHandlers signum) signum then p
  else
    { p with
      sigPending := p.sigPending ||| signalBit signum
      sigTerm := if signum = SIGKILL then signum else p.sigTerm
      killed := if signum = SIGKILL then true else p.killed
      state := if p.state = .sleeping ∧ p.interruptibleSleep then .runnable else p.state }

/-- `signal_send_locked`. -/
def signalSendLocked (p : Proc N) (signum : Int) : Proc N × Int :=
  if p.state = .unused ∨ !signalValid signum then (p, -1)
  else (p.signalMarkLocked signum, 0)

/-- The signals that may be delivered: pending and not masked, or `SIGKILL`. The computation
stands in `signal_pending_locked` and in `signal_deliver`. -/
def deliverable (p : Proc N) : BitVec 32 :=
  let pending := p.sigPending &&& ~~~p.sigMask
  if hasSignal p.sigPending SIGKILL then pending ||| signalBit SIGKILL else pending

/-- `signal_pending_locked`. -/
def signalPendingLocked (p : Proc N) : Bool := p.killed || p.deliverable != 0

end Proc

/-- `signal_choose`; 0 is none. -/
def signalChoose (pending : BitVec 32) : Int :=
  if hasSignal pending SIGKILL then SIGKILL
  else
    match (List.range' 1 31).find? (fun signum ↦ hasBit pending signum) with
    | some signum => signum
    | none => 0

namespace Proc

variable {N : Nat}

/-- The entry into a handler (`signal_deliver`, from the copy of the trap frame on). -/
def enterHandler (p : Proc N) (signum : Int) (handler : Word) : Proc N :=
  { p with
    sigSavedTrapframe := p.trapframe
    sigHandling := true
    sigCurrent := signum
    sigMask := p.sigMask ||| signalBit signum
    trapframe :=
      { ((p.trapframe.setReg .a0 (BitVec.ofInt 64 signum)).setReg .ra SIGTRAMP) with
        epc := handler } }

/-- The end of a process by a signal, in `signal_deliver`. -/
def terminate (p : Proc N) (signum : Int) : Proc N := { p with sigTerm := signum, killed := true }

/-- `p->sig_pending &= ~signal_bit(signum)`. -/
def dropSignal (p : Proc N) (signum : Int) : Proc N :=
  { p with sigPending := p.sigPending &&& ~~~signalBit signum }

/-- What `signal_deliver` does with the signal that it chose. -/
def deliverSignal (p : Proc N) (signum : Int) : Proc N :=
  let q := p.dropSignal signum
  let handler := p.sigHandlers signum
  if signum = SIGKILL ∨ (handler = SIG_DFL ∧ !signalDefaultIgnored signum) then q.terminate signum
  else if ignored handler signum then q
  else if !p.signalHandlerValid handler then q.terminate signum
  else q.enterHandler signum handler

/-- `signal_deliver`. -/
def signalDeliver (p : Proc N) : Proc N :=
  if p.sigHandling && !hasSignal p.deliverable SIGKILL then p
  else
    let signum := signalChoose p.deliverable
    if signum = 0 then p else p.deliverSignal signum

/-- `signal_sigreturn`, with its result. -/
def signalSigreturn (p : Proc N) : Proc N × Word :=
  if !p.sigHandling then (p, -1)
  else
    ({ p with
        trapframe := p.sigSavedTrapframe
        sigMask :=
          if signalValid p.sigCurrent then p.sigMask &&& ~~~signalBit p.sigCurrent else p.sigMask
        sigHandling := false
        sigCurrent := 0
        sigSavedTrapframe := .zero },
      p.sigSavedTrapframe.regs .a0)

/-- `signal_exit_status`. -/
def signalExitStatus (p : Proc N) : Int := if p.sigTerm ≠ 0 then -p.sigTerm else -1

end Proc

/-! ### Sets of signals -/

/-- Valid signals are the numbers from 1 to 31. -/
theorem signalValid_iff {signum : Int} : signalValid signum ↔ 0 < signum ∧ signum < 32 := by
  rw [signalValid, NSIG, Bool.and_eq_true, decide_eq_true_iff, decide_eq_true_iff]

/-- The position of a valid signal is below the width of the sets. -/
theorem toNat_lt {signum : Int} (h : signalValid signum) : signum.toNat < 32 := by
  have hlt := signalValid_iff.mp h
  omega

/-- Valid signals have different positions. -/
theorem toNat_inj {m n : Int} (hm : signalValid m) (hn : signalValid n) :
    m.toNat = n.toNat ↔ m = n := by
  have hlt := signalValid_iff.mp hm
  have hlt' := signalValid_iff.mp hn
  omega

/-- `SIGKILL` is a signal. -/
theorem signalValid_sigkill : signalValid SIGKILL := by decide

/-- Nothing is in the empty set of signals. -/
@[simp] theorem hasSignal_zero (n : Int) : hasSignal 0 n = false := hasBit_zero _

/-- Marking a signal adds it. -/
theorem hasSignal_or {s : BitVec 32} {m n : Int} (hm : signalValid m) (hn : signalValid n) :
    hasSignal (s ||| signalBit m) n = (hasSignal s n || decide (m = n)) := by
  rw [hasSignal, signalBit, hasBit_or (toNat_lt hn)]
  simp only [toNat_inj hm hn, hasSignal]

/-- Clearing a signal removes it. -/
theorem hasSignal_andNot {s : BitVec 32} {m n : Int} (hm : signalValid m) (hn : signalValid n) :
    hasSignal (s &&& ~~~signalBit m) n = (hasSignal s n && !decide (m = n)) := by
  rw [hasSignal, signalBit, hasBit_andNot (toNat_lt hn)]
  simp only [toNat_inj hm hn, hasSignal]

/-- A signal may be delivered when it is pending, and not masked or `SIGKILL`. -/
theorem hasSignal_deliverable {N : Nat} {p : Proc N} {n : Int} (hn : signalValid n) :
    hasSignal p.deliverable n ↔ hasSignal p.sigPending n ∧ (hasSignal p.sigMask n = false ∨
      n = SIGKILL) := by
  have hdiff : hasSignal (p.sigPending &&& ~~~p.sigMask) n =
      (hasSignal p.sigPending n && !hasSignal p.sigMask n) := hasBit_diff (toNat_lt hn)
  rw [Proc.deliverable]
  split
  next hkill =>
    rw [hasSignal_or signalValid_sigkill hn, hdiff]
    by_cases heq : SIGKILL = n
    · subst heq
      simp [hkill]
    · have hne : n ≠ SIGKILL := fun h ↦ heq h.symm
      simp [heq, hne]
  next hkill =>
    rw [hdiff]
    by_cases heq : n = SIGKILL
    · subst heq
      simp [hkill]
    · simp [heq]

/-- `signal_choose` returns a signal of the set, and `SIGKILL` before any other. -/
theorem signalChoose_spec (pending : BitVec 32) : signalChoose pending = 0 ∨
    (signalValid (signalChoose pending) ∧ hasSignal pending (signalChoose pending) ∧
      (hasSignal pending SIGKILL → signalChoose pending = SIGKILL)) := by
  rw [signalChoose]
  split
  next hkill => exact .inr ⟨signalValid_sigkill, hkill, fun _ ↦ rfl⟩
  next hkill =>
    split
    next signum hfind =>
      right
      have hmem := List.mem_of_find?_eq_some hfind
      have hbit := List.find?_some hfind
      rw [List.mem_range'_1] at hmem
      refine ⟨signalValid_iff.mpr (by omega), ?_, fun h ↦ absurd h hkill⟩
      simpa [hasSignal] using hbit
    next hfind => exact .inl rfl

/-- `signal_choose` finds a signal in any set that has one. -/
theorem signalChoose_ne_zero {pending : BitVec 32} {n : Int} (hn : signalValid n)
    (h : hasSignal pending n) : signalChoose pending ≠ 0 := by
  rw [signalChoose]
  split
  next => decide
  next =>
    have hlt := signalValid_iff.mp hn
    split
    next signum hfind =>
      have hmem := List.mem_of_find?_eq_some hfind
      rw [List.mem_range'_1] at hmem
      omega
    next hfind =>
      exfalso
      rw [List.find?_eq_none] at hfind
      apply hfind n.toNat
      · rw [List.mem_range'_1]
        omega
      · exact h

end Xv6K210.Signal
