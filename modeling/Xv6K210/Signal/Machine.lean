import Xv6K210.Base.Runs
import Xv6K210.Signal.Proc

/-!
# Processes that send and receive signals

Source `kernel/trap/trap.c:62–160`, `kernel/syscall/syscall.c:242–267`,
`kernel/proc/proc.c` (`allocproc`, `freeproc`, `fork`, `exit`, `wait`, `yield`, `sleep_on`,
`wakeup_reason`, `wakeup1`), `kernel/proc/exec.c:130–150` and `kernel/proc/signal.c:137–213`.
Each region under the lock of a process is one act on its record, and so is each stretch of a
process's own code that touches no field that others read. Any number of processes take their
acts in any order.
-/

namespace Xv6K210.Signal

open Xv6K210.Base Function

variable {N : Nat}

/-- How a process enters the kernel. -/
inductive Cause where
  | ecall
  | device
  | exception
  deriving DecidableEq, Repr

/-- What happens to the record of one process. -/
inductive Act (N : Nat) where
  /-- user code computes -/
  | compute (regs : Reg → Word) (pc : Word)
  /-- `uservec` and the first lines of `usertrap` -/
  | trap (cause : Cause)
  /-- the outcome of `vm_resolve_fault`; an unexpected exception is never resolved -/
  | resolve (ok : Bool)
  /-- the page table changes -/
  | remap (walk : Word → Option Word)
  /-- `sys_signal` -/
  | signal (signum : Int) (handler : Word)
  /-- `sys_sigreturn` -/
  | sigreturn
  /-- the stores of `exec` into the trap frame -/
  | execFrame (epc sp : Word)
  /-- `signal_reset_on_exec`, in `exec` -/
  | execReset
  /-- `fork` has made the child -/
  | forked (pid : Int)
  /-- any other system call returns -/
  | result (a0 : Word)
  /-- `syscall` stores the result -/
  | store
  /-- `signal_deliver` -/
  | deliver
  /-- the test of `p->killed` behind it -/
  | check
  /-- the argument of `exit(signal_exit_status(p))` -/
  | exitStatus
  /-- `usertrapret` and `userret` -/
  | resume (satp sp handler hartid : Word)
  /-- `sys_exit` -/
  | exit (status : Int)
  /-- `exit` copies `p->parent` -/
  | grab
  /-- the end of `exit` -/
  | zombie
  /-- `sleep_on`, up to `sched` -/
  | sleep (chan : Chan N) (interruptible : Bool)
  /-- `yield` -/
  | yield
  /-- `run_proc`, and the rest of `sleep_on` in a process that slept -/
  | schedule
  /-- `signal_mark_locked` -/
  | mark (signum : Int)
  /-- the body of the loop of `wakeup_reason`, or `wakeup1` -/
  | wakeup (chan : Chan N)
  /-- `proc_setpgid` -/
  | setpgid (pgid : Int)
  /-- `reparent` -/
  | reparent (initproc : Fin N)
  /-- `allocproc`, and what `fork` stores into the child -/
  | born (parent : Proc N) (self : Fin N) (pid : Int)
  /-- `freeproc` -/
  | free

namespace Proc

/-- The process runs, at this place. -/
def isAt (p : Proc N) (phase : Phase) : Bool := p.state = .running && p.loc.phase = phase

/-- The process runs in the kernel. -/
def inKernel (p : Proc N) : Bool :=
  p.state = .running && p.loc.phase ≠ .user && p.loc.phase ≠ .gone

/-- `uservec` saves the registers, `usertrap` the program counter. -/
def saveUser (p : Proc N) (regs : Reg → Word) (pc : Word) : Proc N :=
  { p with trapframe := { p.trapframe with regs, epc := pc } }

/-- The part of `usertrap` up to the branch on the cause. A system call of a killed process ends
it, any other is made with the program counter behind the `ecall`. -/
def usertrap (p : Proc N) (cause : Cause) : Proc N :=
  match p.loc with
  | .user regs pc =>
    let q := p.saveUser regs pc
    match cause with
    | .ecall =>
      if q.killed then { q with loc := .dying }
      else { q with trapframe := { q.trapframe with epc := q.trapframe.epc + 4 }, loc := .syscall }
    | .device => { q with loc := .tail }
    | .exception => { q with loc := .fault }
  | _ => p

/-- `syscall` stores the result of the call. -/
def storeResult (p : Proc N) : Proc N :=
  match p.loc with
  | .sysret a0 => { p with trapframe := p.trapframe.setReg .a0 a0, loc := .tail }
  | _ => p

/-- `exit` copies `p->parent`. -/
def grabParent (p : Proc N) : Proc N :=
  match p.loc, p.parent with
  | .exiting status, some parent => { p with loc := .leaving status parent }
  | _, _ => p

/-- The last stores of `exit`. -/
def becomeZombie (p : Proc N) : Proc N :=
  match p.loc with
  | .leaving status _ => { p with xstate := status, state := .zombie, loc := .gone }
  | _ => p

/-- The stores of `usertrapret` into the trap frame, and the registers of user mode from it. -/
def usertrapret (p : Proc N) (satp sp handler hartid : Word) : Proc N :=
  { p with
    trapframe :=
      { p.trapframe with
        kernelSatp := satp, kernelSp := sp, kernelTrap := handler, kernelHartid := hartid }
    loc := .user p.trapframe.regs p.trapframe.epc }

/-- `sleep_on`, up to `sched`; a signal keeps an interruptible sleep from starting. -/
def sleepOn (p : Proc N) (chan : Chan N) (interruptible : Bool) : Proc N :=
  if interruptible && p.signalPendingLocked then p
  else
    { p with
      chan := some chan
      interruptibleSleep := interruptible
      state := .sleeping
      slept := true }

/-- `run_proc`; a process in `sleep_on` tidies up before it gives its lock back. -/
def run (p : Proc N) : Proc N :=
  if p.slept then
    { p with state := .running, chan := none, interruptibleSleep := false, slept := false }
  else { p with state := .running }

/-- The body of the loop of `wakeup_reason`, and `wakeup1`. -/
def wake (p : Proc N) (chan : Chan N) : Proc N :=
  if p.state = .sleeping ∧ p.chan = some chan then { p with state := .runnable } else p

/-- `allocproc` as far as signals go: a new number, and `signal_proc_init`. -/
def alloc (p : Proc N) (pid : Int) : Proc N :=
  { p with pid, pgid := pid }.signalProcInit

/-- What `fork` stores into the child. -/
def forkChild (p parent : Proc N) (self : Fin N) (pid : Int) : Proc N :=
  let c := p.alloc pid
  let c :=
    { c with
      walk := parent.walk
      parent := some self
      trapframe := parent.trapframe.setReg .a0 0
      pgid := parent.pgid }
  { signalProcFork parent c with state := .runnable, loc := .ret, slept := false }

/-- `freeproc`. -/
def freeproc (p : Proc N) : Proc N :=
  { { p with
      walk := fun _ ↦ none
      trapframe := .zero
      pid := 0
      pgid := 0
      parent := none
      chan := none
      killed := false }.signalProcInit with
    xstate := 0
    state := .unused
    loc := .gone
    slept := false }

end Proc

/-- The act can happen: the process is at the place of the code, or in the state that the code
looks for. -/
def Act.ready (p : Proc N) : Act N → Bool
  | .compute _ _ | .trap _ => p.isAt .user
  | .resolve _ => p.isAt .fault
  | .signal _ _ | .sigreturn | .execFrame _ _ | .execReset | .forked _ | .result _ | .exit _ =>
    p.isAt .syscall
  | .store => p.isAt .sysret
  | .deliver => p.isAt .tail
  | .check => p.isAt .delivered
  | .exitStatus => p.isAt .dying
  | .resume _ _ _ _ => p.isAt .ret
  | .grab => p.isAt .exiting && p.parent.isSome
  | .zombie => p.isAt .leaving
  | .remap _ | .sleep _ _ | .yield => p.inKernel
  | .schedule => p.state = .runnable
  | .mark signum => p.state ≠ .unused && signalValid signum
  | .wakeup _ | .reparent _ => true
  | .setpgid _ => p.state ≠ .unused
  | .born _ _ _ => p.state = .unused
  | .free => p.state = .zombie

/-- What the act does. -/
def Act.effect (p : Proc N) : Act N → Proc N
  | .compute regs pc => { p with loc := .user regs pc }
  | .trap cause => p.usertrap cause
  | .resolve ok => { p with killed := p.killed || !ok, loc := .tail }
  | .remap walk => { p with walk }
  | .signal signum handler =>
    { (p.signalSetHandler signum handler).1 with
      loc := .sysret (p.signalSetHandler signum handler).2 }
  | .sigreturn => { p.signalSigreturn.1 with loc := .sysret p.signalSigreturn.2 }
  | .execFrame epc sp =>
    { p with trapframe := { ((p.trapframe.setReg .a1 sp).setReg .sp sp) with epc } }
  | .execReset => p.signalResetOnExec
  | .forked pid => { p with loc := .sysret (BitVec.ofInt 64 pid) }
  | .result a0 => { p with loc := .sysret a0 }
  | .store => p.storeResult
  | .deliver => { p.signalDeliver with loc := .delivered }
  | .check => { p with loc := if p.killed then .dying else .ret }
  | .exitStatus => { p with loc := .exiting p.signalExitStatus }
  | .resume satp sp handler hartid => p.usertrapret satp sp handler hartid
  | .exit status => { p with loc := .exiting status }
  | .grab => p.grabParent
  | .zombie => p.becomeZombie
  | .sleep chan interruptible => p.sleepOn chan interruptible
  | .yield => { p with state := .runnable }
  | .schedule => p.run
  | .mark signum => p.signalMarkLocked signum
  | .wakeup chan => p.wake chan
  | .setpgid pgid => { p with pgid }
  | .reparent initproc => { p with parent := some initproc }
  | .born parent self pid => p.forkChild parent self pid
  | .free => p.freeproc

/-- One act, where it can happen. -/
def Act.apply (p : Proc N) (a : Act N) : Option (Proc N) :=
  if a.ready p then some (a.effect p) else none

/-- The acts that are a region of their own. The others are parts of sending, `fork`, `exit`,
`wait` and `setpgid`. -/
def Act.alone : Act N → Bool
  | .forked _ | .zombie | .mark _ | .setpgid _ | .reparent _ | .born _ _ _ | .free => false
  | _ => true

/-! ### The system -/

/-- Whom a signal is sent to. -/
inductive Target where
  | pid (pid : Int)
  | pgrp (pgid : Int)
  deriving DecidableEq, Repr

/-- A call of `signal_send_pid` or `signal_send_pgrp` in progress: the process table is searched up
to `cursor`. -/
structure Send where
  target : Target
  signum : Int
  cursor : Nat
  deriving DecidableEq, Repr

/-- The process table, the next number of a process, `initproc`, and the calls in progress that
send a signal. -/
structure World (N : Nat) where
  procs : Fin N → Proc N
  nextpid : Int
  initproc : Fin N
  sends : List Send

/-- What happens next in the system. -/
inductive Op (N : Nat) where
  /-- a region of its own -/
  | act (i : Fin N) (a : Act N)
  /-- a call that sends a signal starts (`sys_kill`, `sys_sigsend`, `pipewrite`, the console) -/
  | send (target : Target) (signum : Int)
  /-- a call that sends a signal looks at its next process -/
  | sendNext (k : Nat)
  /-- `fork` by `i` into the slot `c` -/
  | fork (i c : Fin N)
  /-- the last region of `exit` -/
  | leave (i : Fin N)
  /-- `wait` by `i` frees the child `c` -/
  | reap (i c : Fin N)
  /-- `proc_setpgid` by `i` finds the process `j` -/
  | setpgid (i j : Fin N) (pgid : Int)

/-- The process is one that a call looks for. -/
def Target.matches (t : Target) (p : Proc N) : Bool :=
  match t with
  | .pid n => p.pid = n
  | .pgrp n => p.pgid = n

/-- The number that a call refuses when it is not positive. -/
def Target.number : Target → Int
  | .pid n => n
  | .pgrp n => n

/-- A call looks at the process: it marks one that it looks for. -/
def Send.hits (s : Send) (p : Proc N) : Bool := p.state ≠ .unused && s.target.matches p

/-- The call after it looked at a process. `signal_send_pid` ends with the first one found. -/
def Send.next (s : Send) (p : Proc N) : Option Send :=
  match s.target with
  | .pid _ => if s.hits p then none else some { s with cursor := s.cursor + 1 }
  | .pgrp _ => some { s with cursor := s.cursor + 1 }

namespace World

/-- The record of a process is replaced. -/
def setProc (w : World N) (i : Fin N) (p : Proc N) : World N :=
  { w with procs := update w.procs i p }

/-- One act on one process. -/
def act (w : World N) (i : Fin N) (a : Act N) : Option (World N) :=
  (a.apply (w.procs i)).map (w.setProc i)

/-- `reparent`: the children of `i` go to `initproc`. -/
def reparent (w : World N) (i : Fin N) : World N :=
  { w with
    procs := fun j ↦
      if (w.procs j).parent = some i then { w.procs j with parent := some w.initproc }
      else w.procs j }

/-- `signal_send_locked(original_parent, SIGCHLD)` and `wakeup1(original_parent)`. -/
def notifyParent (w : World N) (parent : Fin N) : World N :=
  w.setProc parent (((w.procs parent).signalSendLocked SIGCHLD).1.wake (.proc parent))

/-- The system after a step, where the step can happen. -/
def after (w : World N) : Op N → Option (World N)
  | .act i a => if a.alone then w.act i a else none
  | .send target signum =>
    if 0 < target.number ∧ signalValid signum then
      some { w with sends := w.sends ++ [{ target, signum, cursor := 0 }] }
    else none
  | .sendNext k =>
    match w.sends[k]? with
    | none => none
    | some s =>
      if h : s.cursor < N then
        let i : Fin N := ⟨s.cursor, h⟩
        let sends := match s.next (w.procs i) with
          | none => w.sends.eraseIdx k
          | some s' => w.sends.set k s'
        if s.hits (w.procs i) then
          (w.act i (.mark s.signum)).map fun w' ↦ { w' with sends }
        else some { w with sends }
      else some { w with sends := w.sends.eraseIdx k }
  | .fork i c =>
    match w.act i (.forked w.nextpid) with
    | none => none
    | some w' =>
      (w'.act c (.born (w.procs i) i w.nextpid)).map fun w'' ↦
        { w'' with nextpid := w.nextpid + 1 }
  | .leave i =>
    match (w.procs i).loc with
    | .leaving _ parent =>
      if i = w.initproc then none
      else ((w.reparent i).notifyParent parent).act i .zombie
    | _ => none
  | .reap i c =>
    if (w.procs i).isAt .syscall ∧ (w.procs c).parent = some i then w.act c .free else none
  | .setpgid i j pgid =>
    if (w.procs i).isAt .syscall ∧ 0 ≤ pgid ∧ (j = i ∨ (w.procs j).parent = some i) then
      w.act j (.setpgid (if pgid = 0 then (w.procs j).pid else pgid))
    else none

/-- One step of the system. -/
def Step (w : World N) (op : Op N) (w' : World N) : Prop := w.after op = some w'

/-- The system when `userinit` is done: one process, in slot 0. -/
def boot (N : Nat) (walk : Word → Option Word) (sp : Word) : World (N + 1) where
  procs := update (fun _ ↦ Proc.zero) 0
    { (Proc.zero.alloc 1) with
      walk
      trapframe := Trapframe.zero.setReg .sp sp
      state := .runnable
      loc := .ret }
  nextpid := 2
  initproc := 0
  sends := []

/-- The system after a list of steps. -/
def afterAll (w : World N) : List (Op N) → Option (World N)
  | [] => some w
  | op :: ops => (w.after op).bind fun w' ↦ w'.afterAll ops

/-- A list of steps that can happen is a run. -/
theorem runs_of_afterAll {w w' : World N} {ops : List (Op N)} (h : w.afterAll ops = some w') :
    Runs Step w ops w' := by
  induction ops generalizing w with
  | nil =>
    obtain rfl : w = w' := Option.some.inj h
    exact .nil w
  | cons op ops ih =>
    rw [afterAll, Option.bind_eq_some_iff] at h
    obtain ⟨u, hu, hrest⟩ := h
    exact .cons hu (ih hrest)

/-- A list of steps that can happen leads to a state with what is computed to hold there. -/
theorem exists_run (w : World N) (ops : List (Op N)) (check : World N → Bool)
    (h : (w.afterAll ops).any check) : ∃ w', Runs Step w ops w' ∧ check w' := by
  rw [Option.any_eq_true] at h
  obtain ⟨w', hw', hcheck⟩ := h
  exact ⟨w', runs_of_afterAll hw', hcheck⟩

end World

/-! ### What a step does to one process -/

/-- The act is one that the step may do to process `j`. -/
def Op.mayDo (w : World N) (j : Fin N) (a : Act N) : Op N → Prop
  | .act i b => i = j ∧ a = b ∧ b.alone
  | .send _ _ => False
  | .sendNext k => ∃ s, w.sends[k]? = some s ∧ s.cursor = j ∧ s.hits (w.procs j) ∧
      a = .mark s.signum
  | .fork i c => (i = j ∧ a = .forked w.nextpid) ∨ (c = j ∧ a = .born (w.procs i) i w.nextpid)
  | .leave i => a = .reparent w.initproc ∨ a = .mark SIGCHLD ∨ a = .wakeup (.proc j) ∨
      (i = j ∧ a = .zombie)
  | .reap _ c => c = j ∧ a = .free
  | .setpgid _ i _ => i = j ∧ ∃ pgid, a = .setpgid pgid

/-- The step is an act of process `j` of its own, or it frees the record of `j`. -/
def Op.does (j : Fin N) (a : Act N) : Op N → Prop
  | .act i b => i = j ∧ a = b
  | .reap _ c => c = j ∧ a = .free
  | _ => False

/-- What a step may do to a process is allowed, when the acts of its own are and the parts of other
steps are. -/
theorem Op.allowed_of_mayDo {w : World N} {j : Fin N} {op : Op N} {a : Act N} {ok : Act N → Prop}
    (hpart : ∀ a, a.alone = false → a ≠ .free → ok a) (hwake : ∀ chan, ok (.wakeup chan))
    (hop : ∀ a, op.does j a → ok a) (hmay : op.mayDo w j a) : ok a := by
  cases op with
  | act i b => exact hop a ⟨hmay.1, hmay.2.1⟩
  | send => cases hmay
  | sendNext k =>
    obtain ⟨s, -, -, -, rfl⟩ := hmay
    exact hpart _ rfl nofun
  | fork i c =>
    cases hmay with
    | inl h => rw [h.2]; exact hpart _ rfl nofun
    | inr h => rw [h.2]; exact hpart _ rfl nofun
  | leave i =>
    obtain rfl | rfl | rfl | ⟨-, rfl⟩ := hmay
    · exact hpart _ rfl nofun
    · exact hpart _ rfl nofun
    · exact hwake _
    · exact hpart _ rfl nofun
  | reap i c => exact hop a hmay
  | setpgid i c pgid =>
    obtain ⟨-, n, rfl⟩ := hmay
    exact hpart _ rfl nofun

/-- One act on the record of a process. -/
def ActStep (p : Proc N) (a : Act N) (p' : Proc N) : Prop := a.apply p = some p'

/-- An act happens when it can, and does what it does. -/
theorem actStep_iff {p p' : Proc N} {a : Act N} : ActStep p a p' ↔ a.ready p ∧ p' = a.effect p := by
  rw [ActStep, Act.apply, Option.ite_none_right_eq_some, Option.some.injEq, eq_comm (a := p')]

namespace World

/-- The process just written. -/
@[simp] theorem setProc_self (w : World N) (i : Fin N) (p : Proc N) :
    (w.setProc i p).procs i = p := update_self _ _ _

private theorem setProc_of_ne (w : World N) {i j : Fin N} (p : Proc N) (h : i ≠ j) :
    (w.setProc i p).procs j = w.procs j := update_of_ne h.symm _ _

/-- An act changes the record of one process. -/
theorem act_cases {w w' : World N} {i : Fin N} {a : Act N} (h : w.act i a = some w') (j : Fin N) :
    (i = j ∧ ActStep (w.procs j) a (w'.procs j)) ∨ (i ≠ j ∧ w'.procs j = w.procs j) := by
  rw [act, Option.map_eq_some_iff] at h
  obtain ⟨p, hp, rfl⟩ := h
  by_cases hij : i = j
  · subst hij
    left
    refine ⟨rfl, ?_⟩
    rw [setProc_self]
    exact hp
  · exact .inr ⟨hij, setProc_of_ne w p hij⟩

/-- What an act does to one process is a run of that act, or nothing. -/
theorem act_runs {w w' : World N} {i : Fin N} {a : Act N} (h : w.act i a = some w') (j : Fin N) :
    ∃ as, Runs ActStep (w.procs j) as (w'.procs j) ∧ ∀ b ∈ as, i = j ∧ b = a := by
  cases act_cases h j with
  | inl hact => exact ⟨[a], .single hact.2, by simp [hact.1]⟩
  | inr hrest =>
    refine ⟨[], ?_, by simp⟩
    rw [hrest.2]
    exact .nil _

/-- `reparent` changes the parent of a process, or nothing. -/
theorem reparent_runs (w : World N) (i j : Fin N) :
    ∃ as, Runs ActStep (w.procs j) as ((w.reparent i).procs j) ∧
      ∀ b ∈ as, b = .reparent w.initproc := by
  by_cases hchild : (w.procs j).parent = some i
  · refine ⟨[.reparent w.initproc], .single ?_, by simp⟩
    simp [ActStep, Act.apply, Act.ready, Act.effect, reparent, hchild]
  · refine ⟨[], ?_, by simp⟩
    rw [reparent]
    dsimp only
    rw [if_neg hchild]
    exact .nil _

/-- The parent of a process that exits is sent `SIGCHLD` and woken up. -/
theorem notifyParent_runs (w : World N) (parent j : Fin N) :
    ∃ as, Runs ActStep (w.procs j) as ((w.notifyParent parent).procs j) ∧
      ∀ b ∈ as, b = .mark SIGCHLD ∨ b = .wakeup (.proc j) := by
  by_cases hj : parent = j
  · subst hj
    have hwake : ∀ q : Proc N, ActStep q (.wakeup (.proc parent)) (q.wake (.proc parent)) :=
      fun q ↦ rfl
    rw [notifyParent, setProc_self, Proc.signalSendLocked]
    split
    next => exact ⟨_, .single (hwake _), by simp⟩
    next hlive =>
      rw [not_or] at hlive
      have hmark : ActStep (w.procs parent) (.mark SIGCHLD)
          ((w.procs parent).signalMarkLocked SIGCHLD) := by
        have hready : (Act.mark SIGCHLD).ready (w.procs parent) := by
          rw [Act.ready, decide_eq_true hlive.1]
          decide
        rw [ActStep, Act.apply, if_pos hready]
        rfl
      exact ⟨_, .cons hmark (.single (hwake _)), by simp⟩
  · refine ⟨[], ?_, by simp⟩
    rw [notifyParent, setProc_of_ne _ _ hj]
    exact .nil _

/-- What a step of the system does to one process is a run of acts that the step may do. -/
theorem Step.acts {w w' : World N} {op : Op N} (h : Step w op w') (j : Fin N) :
    ∃ as, Runs ActStep (w.procs j) as (w'.procs j) ∧ ∀ a ∈ as, op.mayDo w j a := by
  cases op with
  | act i a =>
    simp only [Step, after] at h
    split at h
    next halone =>
      obtain ⟨as, hruns, has⟩ := act_runs h j
      refine ⟨as, hruns, fun b hb ↦ ?_⟩
      obtain ⟨rfl, rfl⟩ := has b hb
      exact ⟨rfl, rfl, halone⟩
    next => cases h
  | send target signum =>
    simp only [Step, after] at h
    split at h
    next =>
      cases h
      exact ⟨[], .nil _, by simp⟩
    next => cases h
  | sendNext k =>
    simp only [Step, after] at h
    split at h
    next => cases h
    next s hs =>
      split at h
      next hlt =>
        split at h
        next hhit =>
          rw [Option.map_eq_some_iff] at h
          obtain ⟨v, hv, rfl⟩ := h
          obtain ⟨as, hruns, has⟩ := act_runs hv j
          refine ⟨as, hruns, fun b hb ↦ ?_⟩
          obtain ⟨rfl, rfl⟩ := has b hb
          exact ⟨s, hs, rfl, hhit, rfl⟩
        next =>
          cases h
          exact ⟨[], .nil _, by simp⟩
      next =>
        cases h
        exact ⟨[], .nil _, by simp⟩
  | fork i c =>
    simp only [Step, after] at h
    split at h
    next => cases h
    next v hv =>
      rw [Option.map_eq_some_iff] at h
      obtain ⟨u, hu, rfl⟩ := h
      obtain ⟨as, hruns, has⟩ := act_runs hv j
      obtain ⟨bs, hruns', hbs⟩ := act_runs hu j
      refine ⟨as ++ bs, hruns.append hruns', fun b hb ↦ ?_⟩
      rw [List.mem_append] at hb
      cases hb with
      | inl hb => exact .inl (has b hb)
      | inr hb => exact .inr (hbs b hb)
  | leave i =>
    simp only [Step, after] at h
    split at h
    next status parent hloc =>
      split at h
      next => cases h
      next =>
        obtain ⟨as, hruns, has⟩ := reparent_runs w i j
        obtain ⟨bs, hruns', hbs⟩ := notifyParent_runs (w.reparent i) parent j
        obtain ⟨cs, hruns'', hcs⟩ := act_runs h j
        refine ⟨as ++ bs ++ cs, (hruns.append hruns').append hruns'', fun b hb ↦ ?_⟩
        simp only [List.mem_append] at hb
        obtain (hb | hb) | hb := hb
        · exact .inl (has b hb)
        · cases hbs b hb with
          | inl hmark => exact .inr (.inl hmark)
          | inr hwake => exact .inr (.inr (.inl hwake))
        · exact .inr (.inr (.inr (hcs b hb)))
    next => cases h
  | reap i c =>
    simp only [Step, after] at h
    split at h
    next =>
      obtain ⟨as, hruns, has⟩ := act_runs h j
      exact ⟨as, hruns, has⟩
    next => cases h
  | setpgid i c pgid =>
    simp only [Step, after] at h
    split at h
    next =>
      obtain ⟨as, hruns, has⟩ := act_runs h j
      exact ⟨as, hruns, fun b hb ↦ ⟨(has b hb).1, _, (has b hb).2⟩⟩
    next => cases h

end World

end Xv6K210.Signal
