import Xv6K210.Signal.Kill

/-!
# Signal handlers and the return from them

Source `kernel/proc/signal.c:240–330`, `kernel/syscall/syscall.c:242–267`,
`kernel/trap/trap.c:62–160` and `kernel/trap/sigtramp.S`. A process that entered a handler keeps
the saved frame until `sigreturn`, which gives it back; on the same way to user mode
`signal_deliver` runs once more and may enter the handler of another signal.
-/

namespace Xv6K210.Signal

open Xv6K210.Base

variable {N : Nat}

/-- The process is on its way to `exit`, or in it, or a zombie: it does not return to user mode. -/
def Proc.Ending (p : Proc N) : Prop :=
  match p.loc with
  | .delivered => p.killed
  | .dying | .exiting _ | .leaving _ _ | .gone => True
  | _ => False

/-- A process at another place is not ending. -/
theorem Proc.not_ending {p : Proc N} {phase : Phase} (h : p.isAt phase)
    (hphase : phase = .user ∨ phase = .syscall ∨ phase = .sysret ∨ phase = .fault ∨
      phase = .tail ∨ phase = .ret) : ¬ p.Ending := by
  intro hend
  have hp := phase_of_isAt h
  rw [Ending] at hend
  split at hend
  all_goals first
    | (next hloc => rw [hloc] at hp; subst hp; simp [Loc.phase] at hphase)
    | exact hend

/-- A live process is live after any act but `freeproc`. -/
theorem live_effect {p : Proc N} {a : Act N} (ha : a ≠ .free) (h : p.state ≠ .unused) :
    (a.effect p).state ≠ .unused := by
  rw [Act.effect_state]
  cases a with
  | zombie =>
    rw [Act.state, Proc.becomeZombie]
    split
    next => rintro ⟨⟩
    next => exact h
  | sleep chan interruptible =>
    rw [Act.state, Proc.sleepOn]
    split
    next => exact h
    next => rintro ⟨⟩
  | mark signum =>
    rw [Act.state, Proc.signalMarkLocked]
    split
    next => exact h
    next =>
      dsimp only
      split
      next => rintro ⟨⟩
      next => exact h
  | wakeup chan =>
    rw [Act.state, Proc.wake]
    split
    next => rintro ⟨⟩
    next => exact h
  | yield | schedule | born => rintro ⟨⟩
  | free => exact absurd rfl ha
  | _ => exact h

/-- What is pending stays pending through any act but a delivery, `signal_reset_on_exec`, and a
call of `signal()` that ignores it. -/
theorem pending_effect {p : Proc N} {a : Act N} {n : Int} (hn : signalValid n) (hready : a.ready p)
    (hlive : p.state ≠ .unused) (hreset : a ≠ .execReset) (hfree : a ≠ .free) (hdel : a ≠ .deliver)
    (hsignal : ∀ handler, a = .signal n handler → ignored handler n = false)
    (h : hasSignal p.sigPending n) : hasSignal (a.effect p).sigPending n := by
  have heq := Act.effect_signals p a
  rw [heq]
  cases a with
  | signal signum handler =>
    rw [Act.signals, Proc.signalSetHandler]
    split
    next => exact h
    next hvalid =>
      have hv : signalValid signum := by simpa using hvalid
      split
      next => exact h
      next =>
        split
        next => exact h
        next =>
          dsimp only
          split
          next hign =>
            have hne : signum ≠ n := by
              rintro rfl
              rw [hsignal handler rfl] at hign
              cases hign
            rw [hasSignal_andNot hv hn, h]
            simpa using hne
          next => exact h
  | sigreturn => rw [Act.signals, (signalSigreturn_frame p).2.2, h]
  | mark signum =>
    rw [Act.ready, Bool.and_eq_true] at hready
    rw [Act.signals, Proc.signalMarkLocked]
    split
    next => exact h
    next =>
      dsimp only
      rw [hasSignal_or hready.2 hn, h, Bool.true_or]
  | born parent self pid =>
    rw [Act.ready, decide_eq_true_iff] at hready
    exact absurd hready hlive
  | execReset => exact absurd rfl hreset
  | deliver => exact absurd rfl hdel
  | free => exact absurd rfl hfree
  | _ => exact h

/-- A process on its way to the end stays there until its record is freed. -/
theorem ending_effect {p : Proc N} {a : Act N} (hready : a.ready p) (hlive : p.state ≠ .unused)
    (hfree : a ≠ .free) (h : p.Ending) : (a.effect p).Ending := by
  have hat : ∀ phase : Phase, p.isAt phase → (phase = .user ∨ phase = .syscall ∨ phase = .sysret ∨
      phase = .fault ∨ phase = .tail ∨ phase = .ret) → (a.effect p).Ending :=
    fun _ hphase hearly ↦ absurd h (Proc.not_ending hphase hearly)
  cases a with
  | compute | trap => exact hat .user hready (by simp)
  | resolve => exact hat .fault hready (by simp)
  | signal | sigreturn | execFrame | execReset | forked | result | exit =>
    exact hat .syscall hready (by simp)
  | store => exact hat .sysret hready (by simp)
  | deliver => exact hat .tail hready (by simp)
  | resume => exact hat .ret hready (by simp)
  | check =>
    have hphase := Proc.phase_of_isAt hready
    have hkilled : p.killed := by
      rw [Proc.Ending] at h
      split at h
      next => exact h
      all_goals first
        | (next hloc => rw [hloc] at hphase; cases hphase)
        | cases h
    change ({ p with loc := if p.killed then .dying else .ret } : Proc N).Ending
    rw [if_pos hkilled]
    trivial
  | exitStatus => trivial
  | grab =>
    change p.grabParent.Ending
    rw [Proc.grabParent]
    split
    next => trivial
    next => exact h
  | zombie =>
    change p.becomeZombie.Ending
    rw [Proc.becomeZombie]
    split
    next => trivial
    next => exact h
  | remap walk => exact h
  | sleep chan interruptible =>
    change (p.sleepOn chan interruptible).Ending
    rw [Proc.sleepOn]
    split <;> exact h
  | yield => exact h
  | schedule =>
    change p.run.Ending
    rw [Proc.run]
    split <;> exact h
  | mark signum =>
    change (p.signalMarkLocked signum).Ending
    rw [Proc.signalMarkLocked]
    split
    next => exact h
    next =>
      rw [Proc.Ending] at h ⊢
      dsimp only
      split at h
      next => split <;> simp_all
      all_goals exact h
  | wakeup chan =>
    change (p.wake chan).Ending
    rw [Proc.wake]
    split <;> exact h
  | setpgid pgid => exact h
  | reparent initproc => exact h
  | born parent self pid =>
    rw [Act.ready, decide_eq_true_iff] at hready
    exact absurd hready hlive
  | free => exact absurd rfl hfree

/-! ### In the handler -/

/-- The process runs the handler of signal `n`, with the frame and the mask of before. -/
structure Proc.InHandler (f : Trapframe) (m : BitVec 32) (n : Int) (p : Proc N) : Prop where
  live : p.state ≠ .unused
  handling : p.sigHandling
  current : p.sigCurrent = n
  saved : p.sigSavedTrapframe = f
  mask : p.sigMask = m ||| signalBit n

/-- An act that does not leave the handler: `sigreturn` and `signal_reset_on_exec` do, and
`freeproc` ends the process. -/
def Act.StaysInHandler : Act N → Prop
  | .sigreturn | .execReset | .free => False
  | _ => True

/-- The act stays in the handler and does not set signal `n` to ignored. -/
structure Act.Keeps (n : Int) (a : Act N) : Prop where
  stays : a.StaysInHandler
  signal : ∀ handler, a = .signal n handler → ignored handler n = false

/-- The fields of the handler are the same. -/
theorem Proc.InHandler.congr {f : Trapframe} {m : BitVec 32} {n : Int} {p q : Proc N}
    (h : p.InHandler f m n) (hlive : q.state ≠ .unused) (hh : q.sigHandling = p.sigHandling)
    (hc : q.sigCurrent = p.sigCurrent) (hs : q.sigSavedTrapframe = p.sigSavedTrapframe)
    (hm : q.sigMask = p.sigMask) : q.InHandler f m n where
  live := hlive
  handling := by rw [hh, h.handling]
  current := by rw [hc, h.current]
  saved := by rw [hs, h.saved]
  mask := by rw [hm, h.mask]

/-- No other handler is entered before the return, and the saved frame stays. -/
theorem inHandler_effect {f : Trapframe} {m : BitVec 32} {n : Int} {p : Proc N} {a : Act N}
    (hstays : a.StaysInHandler) (hready : a.ready p) (h : p.InHandler f m n) :
    (a.effect p).InHandler f m n := by
  have hlive : (a.effect p).state ≠ .unused := by
    apply live_effect _ h.live
    rintro rfl
    exact hstays
  have hsignals := Act.effect_signals p a
  have hsame : a.signals p = p.toSignals → (a.effect p).InHandler f m n := by
    intro heq
    rw [heq] at hsignals
    apply h.congr hlive <;> rw [hsignals]
  cases a with
  | signal signum handler =>
    apply h.congr hlive <;> rw [hsignals, Act.signals, Proc.signalSetHandler] <;>
    · split
      next => rfl
      next =>
        split
        next => rfl
        next => split <;> rfl
  | mark signum =>
    apply h.congr hlive <;> rw [hsignals, Act.signals, Proc.signalMarkLocked] <;> split <;> rfl
  | deliver =>
    have hd := signalDeliver_spec p
    change p.signalDeliver.state ≠ .unused at hlive
    change ({ p.signalDeliver with loc := .delivered } : Proc N).InHandler f m n
    generalize p.signalDeliver = q at hd hlive
    cases hd with
    | none => exact h.congr hlive rfl rfl rfl rfl
    | terminate signum _ _ => exact h.congr hlive rfl rfl rfl rfl
    | ignore signum _ hidle _ _ => exact absurd h.handling (by simp [hidle])
    | handler signum _ _ hidle _ _ => exact absurd h.handling (by simp [hidle])
  | born parent self pid =>
    rw [Act.ready, decide_eq_true_iff] at hready
    exact absurd hready h.live
  | sigreturn => cases hstays
  | execReset => cases hstays
  | free => cases hstays
  | _ => exact hsame rfl

/-- Signal `n` is pending, unless the process does not return to user mode. -/
def Proc.Kept (n : Int) (p : Proc N) : Prop := hasSignal p.sigPending n ∨ p.Ending

/-- A pending signal stays pending while a handler runs, unless it is set to ignored. -/
theorem kept_effect {f : Trapframe} {m : BitVec 32} {k n : Int} {p : Proc N} {a : Act N}
    (hn : signalValid n) (hin : p.InHandler f m k) (hkeeps : a.Keeps n) (hready : a.ready p)
    (h : p.Kept n) : (a.effect p).Kept n := by
  have hfree : a ≠ .free := by
    rintro rfl
    exact hkeeps.stays
  have hreset : a ≠ .execReset := by
    rintro rfl
    exact hkeeps.stays
  cases h with
  | inr hend => exact .inr (ending_effect hready hin.live hfree hend)
  | inl hpend =>
    by_cases hdel : a = .deliver
    · subst hdel
      have hd := signalDeliver_spec p
      change ({ p.signalDeliver with loc := .delivered } : Proc N).Kept n
      generalize p.signalDeliver = q at hd
      cases hd with
      | none => exact .inl hpend
      | terminate signum _ _ => exact .inr rfl
      | ignore signum _ hidle _ _ => exact absurd hin.handling (by simp [hidle])
      | handler signum _ _ hidle _ _ => exact absurd hin.handling (by simp [hidle])
    · exact .inl (pending_effect hn hready hin.live hreset hfree hdel hkeeps.signal hpend)

/-! ### On the way back -/

/-- The process is as before the delivery: the frame, the mask, and no handler. The signals in
`keep` are pending. -/
structure Proc.Restored (f : Trapframe) (m : BitVec 32) (keep : Int → Prop) (p : Proc N) :
    Prop where
  frame : p.trapframe = f
  mask : p.sigMask = m
  handling : p.sigHandling = false
  current : p.sigCurrent = 0
  pending : ∀ n, signalValid n → keep n → hasSignal p.sigPending n

/-- The frame with which a handler is entered. -/
def Trapframe.redirect (f : Trapframe) (signum : Int) (handler : Word) : Trapframe :=
  { ((f.setReg .a0 (BitVec.ofInt 64 signum)).setReg .ra SIGTRAMP) with epc := handler }

/-- Another signal was delivered on the same way back: its handler is entered with the frame and
the mask of before, and the other signals in `keep` are pending. -/
structure Proc.Redelivered (f : Trapframe) (m : BitVec 32) (keep : Int → Prop) (signum : Int)
    (p : Proc N) : Prop where
  valid : signalValid signum
  frame : p.trapframe = f.redirect signum (p.sigHandlers signum)
  saved : p.sigSavedTrapframe = f
  unmasked : hasSignal m signum = false
  mask : p.sigMask = m ||| signalBit signum
  handling : p.sigHandling
  current : p.sigCurrent = signum
  pending : ∀ n, signalValid n → n ≠ signum → keep n → hasSignal p.sigPending n

/-- What is known of the process between `sigreturn` and user mode, at each place. -/
def Proc.Way (f : Trapframe) (m : BitVec 32) (keep : Int → Prop) (p : Proc N) : Prop :=
  match p.loc with
  | .sysret a0 => a0 = f.regs .a0 ∧ p.Restored f m keep
  | .tail => p.Restored f m keep
  | .delivered => p.killed ∨ p.Restored f m keep ∨ ∃ signum, p.Redelivered f m keep signum
  | .ret => p.Restored f m keep ∨ ∃ signum, p.Redelivered f m keep signum
  | .dying | .exiting _ | .leaving _ _ | .gone => True
  | .user _ _ | .syscall | .fault => False

/-- A live process between `sigreturn` and user mode. -/
structure Proc.Returning (f : Trapframe) (m : BitVec 32) (keep : Int → Prop) (p : Proc N) :
    Prop where
  live : p.state ≠ .unused
  proper : p.Proper
  way : p.Way f m keep

/-- An act before the process is back in user mode. -/
def Act.StaysInKernel : Act N → Prop
  | .resume _ _ _ _ | .free => False
  | _ => True

/-- The same place, frame, dispositions and handling, and no fewer pending signals. -/
theorem Proc.Way.congr {f : Trapframe} {m : BitVec 32} {keep : Int → Prop} {p q : Proc N}
    (h : p.Way f m keep) (hloc : q.loc = p.loc) (hk : p.killed → q.killed)
    (hf : q.trapframe = p.trapframe) (hm : q.sigMask = p.sigMask)
    (hh : q.sigHandling = p.sigHandling) (hc : q.sigCurrent = p.sigCurrent)
    (hs : q.sigSavedTrapframe = p.sigSavedTrapframe) (hd : q.sigHandlers = p.sigHandlers)
    (hp : ∀ n, signalValid n → hasSignal p.sigPending n → hasSignal q.sigPending n) :
    q.Way f m keep := by
  have hrest : p.Restored f m keep → q.Restored f m keep := fun hr ↦
    { frame := by rw [hf, hr.frame]
      mask := by rw [hm, hr.mask]
      handling := by rw [hh, hr.handling]
      current := by rw [hc, hr.current]
      pending := fun n hn hkeep ↦ hp n hn (hr.pending n hn hkeep) }
  have hre : (∃ k, p.Redelivered f m keep k) → ∃ k, q.Redelivered f m keep k := fun ⟨k, hr⟩ ↦
    ⟨k,
      { valid := hr.valid
        frame := by rw [hf, hd, hr.frame]
        saved := by rw [hs, hr.saved]
        unmasked := hr.unmasked
        mask := by rw [hm, hr.mask]
        handling := by rw [hh, hr.handling]
        current := by rw [hc, hr.current]
        pending := fun n hn hne hkeep ↦ hp n hn (hr.pending n hn hne hkeep) }⟩
  rw [Way] at h ⊢
  rw [hloc]
  split at h
  next => exact ⟨h.1, hrest h.2⟩
  next => exact hrest h
  next => exact h.imp hk (Or.imp hrest hre)
  next => exact h.imp hrest hre
  all_goals exact h

/-- Before user mode there is no user code, no system call and no fault. -/
theorem Proc.Way.not_at {f : Trapframe} {m : BitVec 32} {keep : Int → Prop} {p : Proc N}
    (h : p.Way f m keep) {phase : Phase} (hat : p.isAt phase)
    (hphase : phase = .user ∨ phase = .syscall ∨ phase = .fault) : False := by
  have hp := phase_of_isAt hat
  rw [Way] at h
  split at h
  all_goals first
    | exact h
    | (next hloc => rw [hloc] at hp; subst hp; simp [Loc.phase] at hphase)

/-- `signal_deliver` on the way back leaves the process restored, enters another handler, or ends
the process. -/
theorem Delivery.way {f : Trapframe} {m : BitVec 32} {keep : Int → Prop} {p q : Proc N}
    (hd : Delivery p q) (hproper : p.Proper) (h : p.Restored f m keep) :
    q.killed ∨ q.Restored f m keep ∨ ∃ signum, q.Redelivered f m keep signum := by
  cases hd with
  | none => exact .inr (.inl h)
  | terminate signum _ _ => exact .inl rfl
  | ignore signum hv _ hpend hign =>
    have hnone := hproper.pending signum hv hign
    rw [hpend] at hnone
    cases hnone
  | handler signum hv _ _ _ hmask =>
    refine .inr (.inr ⟨signum, ?_⟩)
    rw [h.mask] at hmask
    constructor
    · exact hv
    · change p.trapframe.redirect signum (p.sigHandlers signum) =
        f.redirect signum (p.sigHandlers signum)
      rw [h.frame]
    · exact h.frame
    · exact hmask
    · change p.sigMask ||| signalBit signum = m ||| signalBit signum
      rw [h.mask]
    · rfl
    · rfl
    · intro n hn hne hkeep
      change hasSignal (p.sigPending &&& ~~~signalBit signum) n
      rw [hasSignal_andNot hv hn, h.pending n hn hkeep, decide_eq_false (fun heq ↦ hne heq.symm)]
      rfl

/-- What is known on the way back is kept by every act. -/
theorem way_effect {f : Trapframe} {m : BitVec 32} {keep : Int → Prop} {p : Proc N} {a : Act N}
    (hstays : a.StaysInKernel) (hready : a.ready p) (h : p.Returning f m keep) :
    (a.effect p).Way f m keep := by
  have hway := h.way
  cases a with
  | compute | trap => exact (hway.not_at hready (by simp)).elim
  | resolve => exact (hway.not_at hready (by simp)).elim
  | signal | sigreturn | execFrame | execReset | forked | result | exit =>
    exact (hway.not_at hready (by simp)).elim
  | remap walk => exact hway.congr rfl id rfl rfl rfl rfl rfl rfl fun _ _ ↦ id
  | store =>
    obtain ⟨a0, hloc⟩ := Proc.loc_sysret hready
    rw [Proc.Way, hloc] at hway
    obtain ⟨rfl, hrest⟩ := hway
    change p.storeResult.Way f m keep
    rw [Proc.storeResult, hloc]
    refine { hrest with frame := ?_ }
    change p.trapframe.setReg .a0 (f.regs .a0) = f
    rw [hrest.frame, Trapframe.setReg_self]
  | deliver =>
    rw [Proc.Way, Proc.loc_tail hready] at hway
    have hd := (signalDeliver_spec p).way h.proper hway
    change p.signalDeliver.killed ∨
      ({ p.signalDeliver with loc := .delivered } : Proc N).Restored f m keep ∨
      ∃ signum, ({ p.signalDeliver with loc := .delivered } : Proc N).Redelivered f m keep signum
    obtain hk | hr | ⟨signum, hr⟩ := hd
    · exact .inl hk
    · exact .inr (.inl ⟨hr.frame, hr.mask, hr.handling, hr.current, hr.pending⟩)
    · exact .inr (.inr ⟨signum, hr.valid, hr.frame, hr.saved, hr.unmasked, hr.mask, hr.handling,
        hr.current, hr.pending⟩)
  | check =>
    rw [Proc.Way, Proc.loc_delivered hready] at hway
    change ({ p with loc := if p.killed then .dying else .ret } : Proc N).Way f m keep
    split
    next => trivial
    next hk =>
      obtain hr | ⟨signum, hr⟩ := hway.resolve_left hk
      · exact .inl ⟨hr.frame, hr.mask, hr.handling, hr.current, hr.pending⟩
      · exact .inr ⟨signum, hr.valid, hr.frame, hr.saved, hr.unmasked, hr.mask, hr.handling,
          hr.current, hr.pending⟩
  | exitStatus => trivial
  | resume => cases hstays
  | grab =>
    change p.grabParent.Way f m keep
    rw [Proc.grabParent]
    split
    next => trivial
    next => exact hway
  | zombie =>
    change p.becomeZombie.Way f m keep
    rw [Proc.becomeZombie]
    split
    next => trivial
    next => exact hway
  | sleep chan interruptible =>
    change (p.sleepOn chan interruptible).Way f m keep
    rw [Proc.sleepOn]
    split
    next => exact hway
    next => exact hway.congr rfl id rfl rfl rfl rfl rfl rfl fun _ _ ↦ id
  | yield => exact hway.congr rfl id rfl rfl rfl rfl rfl rfl fun _ _ ↦ id
  | schedule =>
    change p.run.Way f m keep
    rw [Proc.run]
    split <;> exact hway.congr rfl id rfl rfl rfl rfl rfl rfl fun _ _ ↦ id
  | mark signum =>
    rw [Act.ready, Bool.and_eq_true] at hready
    change (p.signalMarkLocked signum).Way f m keep
    rw [Proc.signalMarkLocked]
    split
    next => exact hway
    next =>
      refine hway.congr rfl ?_ rfl rfl rfl rfl rfl rfl ?_
      · intro hk
        dsimp only
        split
        next => rfl
        next => exact hk
      · intro n hn hpend
        dsimp only
        rw [hasSignal_or hready.2 hn, hpend, Bool.true_or]
  | wakeup chan =>
    change (p.wake chan).Way f m keep
    rw [Proc.wake]
    split
    next => exact hway.congr rfl id rfl rfl rfl rfl rfl rfl fun _ _ ↦ id
    next => exact hway
  | setpgid pgid => exact hway.congr rfl id rfl rfl rfl rfl rfl rfl fun _ _ ↦ id
  | reparent initproc => exact hway.congr rfl id rfl rfl rfl rfl rfl rfl fun _ _ ↦ id
  | born parent self pid =>
    rw [Act.ready, decide_eq_true_iff] at hready
    exact absurd hready h.live
  | free => cases hstays

/-- A process on its way back stays on it. -/
theorem returning_effect {f : Trapframe} {m : BitVec 32} {keep : Int → Prop} {p : Proc N}
    {a : Act N} (hstays : a.StaysInKernel) (hready : a.ready p) (h : p.Returning f m keep) :
    (a.effect p).Returning f m keep where
  live := by
    apply live_effect _ h.live
    rintro rfl
    exact hstays
  proper := by
    apply proper_effect hready h.proper
    rintro q i pid rfl
    rw [Act.ready, decide_eq_true_iff] at hready
    exact absurd hready h.live
  way := way_effect hstays hready h

/-! ### The round trip -/

namespace World

/-- A run of steps that leave a process in its handler. -/
theorem runs_inHandler {w w' : World N} {ops : List (Op N)} {i : Fin N} {f : Trapframe}
    {m : BitVec 32} {n : Int} (h : Runs Step w ops w')
    (hin : ∀ op ∈ ops, ∀ a, op.does i a → a.StaysInHandler)
    (hw : (w.procs i).InHandler f m n) : (w'.procs i).InHandler f m n := by
  apply h.invariant_of (fun w ↦ (w.procs i).InHandler f m n) ?_ hin hw
  intro w op w' hok hw hstep
  apply hstep.invariant (fun p ↦ p.InHandler f m n) ?_ hw
  intro p a hmay hready hp
  refine inHandler_effect (Op.allowed_of_mayDo ?_ (fun _ ↦ trivial) hok hmay) hready hp
  intro b halone hfree
  cases b with
  | free => exact absurd rfl hfree
  | execReset => cases halone
  | sigreturn => cases halone
  | _ => trivial

/-- A signal that is pending in the handler stays so, unless it is set to ignored. -/
theorem runs_kept {w w' : World N} {ops : List (Op N)} {i : Fin N} {f : Trapframe}
    {m : BitVec 32} {k n : Int} (hn : signalValid n) (h : Runs Step w ops w')
    (hin : ∀ op ∈ ops, ∀ a, op.does i a → a.StaysInHandler)
    (hsignal : ∀ op ∈ ops, ∀ handler, op.does i (.signal n handler) → ignored handler n = false)
    (hw : (w.procs i).InHandler f m k) (hpend : hasSignal (w.procs i).sigPending n) :
    (w'.procs i).Kept n := by
  have hkeeps : ∀ op ∈ ops, ∀ a, op.does i a → a.Keeps n := by
    intro op hop a hdoes
    refine ⟨hin op hop a hdoes, ?_⟩
    rintro handler rfl
    exact hsignal op hop handler hdoes
  have hboth : (w'.procs i).InHandler f m k ∧ (w'.procs i).Kept n := by
    refine h.invariant_of (fun w ↦ (w.procs i).InHandler f m k ∧ (w.procs i).Kept n) ?_ hkeeps
      ⟨hw, .inl hpend⟩
    intro w op w' hok hw hstep
    apply hstep.invariant (fun p ↦ p.InHandler f m k ∧ p.Kept n) ?_ hw
    intro p a hmay hready hp
    have ha : a.Keeps n := by
      refine Op.allowed_of_mayDo ?_ (fun _ ↦ ⟨trivial, nofun⟩) hok hmay
      intro b halone hfree
      cases b with
      | free => exact absurd rfl hfree
      | execReset => cases halone
      | sigreturn => cases halone
      | signal => cases halone
      | _ => exact ⟨trivial, nofun⟩
    exact ⟨inHandler_effect ha.1 hready hp.1, kept_effect hn hp.1 ha hready hp.2⟩
  exact hboth.2

/-- A run of steps that leave a process on its way back. -/
theorem runs_returning {w w' : World N} {ops : List (Op N)} {i : Fin N} {f : Trapframe}
    {m : BitVec 32} {keep : Int → Prop} (h : Runs Step w ops w')
    (hin : ∀ op ∈ ops, ∀ a, op.does i a → a.StaysInKernel)
    (hw : (w.procs i).Returning f m keep) : (w'.procs i).Returning f m keep := by
  apply h.invariant_of (fun w ↦ (w.procs i).Returning f m keep) ?_ hin hw
  intro w op w' hok hw hstep
  apply hstep.invariant (fun p ↦ p.Returning f m keep) ?_ hw
  intro p a hmay hready hp
  refine returning_effect (Op.allowed_of_mayDo ?_ (fun _ ↦ trivial) hok hmay) hready hp
  intro b halone hfree
  cases b with
  | free => exact absurd rfl hfree
  | resume => cases halone
  | _ => trivial

/-- The record of a process after an act of its own. -/
theorem procs_act {w w' : World N} {i : Fin N} {a : Act N} (h : Step w (.act i a) w') :
    a.ready (w.procs i) ∧ w'.procs i = a.effect (w.procs i) := by
  rw [Step, after] at h
  split at h
  next =>
    obtain ⟨-, hact⟩ | ⟨hne, -⟩ := act_cases h i
    · exact actStep_iff.mp hact
    · exact absurd rfl hne
  next => cases h

/-- The delivery of a caught signal enters its handler. -/
theorem inHandler_of_deliver {w w' : World N} {i : Fin N} (h : Step w (.act i .deliver) w')
    (hidle : (w.procs i).sigHandling = false) (hcaught : (w'.procs i).sigHandling) :
    ∃ n, signalValid n ∧ hasSignal (w.procs i).sigMask n = false ∧
      (w'.procs i).InHandler (w.procs i).trapframe (w.procs i).sigMask n := by
  obtain ⟨hready, heq⟩ := procs_act h
  have hlive : (w'.procs i).state ≠ .unused := by
    rw [heq, Act.effect_state]
    change (w.procs i).state ≠ .unused
    rw [Proc.running_of_isAt hready]
    decide
  have hd := signalDeliver_spec (w.procs i)
  change w'.procs i = { (w.procs i).signalDeliver with loc := .delivered } at heq
  generalize (w.procs i).signalDeliver = q at hd heq
  rw [heq] at hlive hcaught ⊢
  cases hd with
  | none => exact absurd hcaught (by simp [hidle])
  | terminate signum _ _ =>
    change (w.procs i).sigHandling = true at hcaught
    exact absurd hcaught (by simp [hidle])
  | ignore signum _ _ _ _ =>
    change (w.procs i).sigHandling = true at hcaught
    exact absurd hcaught (by simp [hidle])
  | handler signum hv _ _ _ hmask => exact ⟨signum, hv, hmask, hlive, rfl, rfl, rfl, rfl⟩

/-- `sigreturn` in a handler gives the frame, the mask and the handling state back. -/
theorem returning_of_sigreturn {w w' : World N} {i : Fin N} {f : Trapframe} {m : BitVec 32}
    {n : Int} {keep : Int → Prop} (h : Step w (.act i .sigreturn) w')
    (hin : (w.procs i).InHandler f m n) (hv : signalValid n) (hm : hasSignal m n = false)
    (hproper : (w'.procs i).Proper)
    (hkept : ∀ k, signalValid k → keep k → (w.procs i).Kept k) :
    (w'.procs i).Returning f m keep := by
  obtain ⟨hready, heq⟩ := procs_act h
  have hcall : (w.procs i).signalSigreturn =
      ({ (w.procs i) with
          trapframe := f
          sigMask := m
          sigHandling := false
          sigCurrent := 0
          sigSavedTrapframe := .zero }, f.regs .a0) := by
    rw [Proc.signalSigreturn, if_neg (by simp [hin.handling]), hin.saved, hin.current, if_pos hv,
      hin.mask, signalBit, or_andNot (toNat_lt hv) hm]
  refine ⟨?_, hproper, ?_⟩
  · rw [heq, Act.effect_state]
    exact hin.live
  · rw [heq]
    change ({ (w.procs i).signalSigreturn.1 with
      loc := .sysret (w.procs i).signalSigreturn.2 } : Proc N).Way f m keep
    rw [hcall]
    refine ⟨rfl, rfl, rfl, rfl, rfl, fun k hk hkeep ↦ ?_⟩
    exact (hkept k hk hkeep).resolve_right (Proc.not_ending hready (by simp))

end World

/-- No handler runs, so none is recorded. -/
def Signals.Rested (s : Signals) : Prop := s.sigHandling = false → s.sigCurrent = 0

/-- The record of the handled signal goes with the flag. -/
theorem rested_effect {p : Proc N} {a : Act N} (h : p.Rested) : (a.effect p).Rested := by
  rw [Act.effect_signals]
  cases a with
  | signal signum handler =>
    rw [Act.signals, Proc.signalSetHandler]
    split
    next => exact h
    next =>
      split
      next => exact h
      next => split <;> exact h
  | sigreturn =>
    rw [Act.signals, Proc.signalSigreturn]
    split
    next => exact h
    next => exact fun _ ↦ rfl
  | execReset => exact fun _ ↦ rfl
  | deliver =>
    have hd := signalDeliver_spec p
    change p.signalDeliver.Rested
    generalize p.signalDeliver = q at hd
    cases hd with
    | none => exact h
    | terminate => exact h
    | ignore => exact h
    | handler => exact fun hidle ↦ by cases hidle
  | mark signum =>
    rw [Act.signals, Proc.signalMarkLocked]
    split <;> exact h
  | born => exact fun _ ↦ rfl
  | free => exact fun _ ↦ rfl
  | _ => exact h

namespace World

/-- After every run, a process that runs no handler records no signal. -/
theorem runs_rested {walk : Word → Option Word} {sp : Word} {ops : List (Op (N + 1))}
    {w : World (N + 1)} (h : Runs Step (boot N walk sp) ops w) (j : Fin (N + 1)) :
    (w.procs j).Rested := by
  apply h.invariant (fun w ↦ ∀ j, (w.procs j).Rested)
  · intro w op w' hw hstep j
    exact hstep.invariant (fun p ↦ p.Rested) (fun _ _ _ _ hp ↦ rested_effect hp) (hw j)
  · intro j
    rw [boot]
    dsimp only
    by_cases hj : j = 0
    · subst hj
      rw [Function.update_self]
      exact fun _ ↦ rfl
    · rw [Function.update_of_ne hj]
      exact fun _ ↦ rfl

/-- A caught signal is delivered; the process stays in the handler, calls `sigreturn`, and returns
to user mode. Unless another signal is delivered on that way, the registers and the program counter
are those that the delivery saved, and so are the mask and the handling state; a signal that was
pending at any moment of the handler is still pending if it was not set to ignored. If another
signal is delivered, its handler is entered with that frame saved and that mask, and the rest of
the pending signals are still pending. -/
theorem sigreturn_round_trip {walk : Word → Option Word} {sp : Word} {ops : List (Op (N + 1))}
    {w0 w1 u w2 w3 w4 w5 : World (N + 1)} {i : Fin (N + 1)}
    (h : Runs Step (boot N walk sp) ops w0) (hdeliver : Step w0 (.act i .deliver) w1)
    (hidle : (w0.procs i).sigHandling = false) (hcaught : (w1.procs i).sigHandling)
    {ops1 ops2 ops3 : List (Op (N + 1))} (hrun1 : Runs Step w1 ops1 u)
    (hrun2 : Runs Step u ops2 w2)
    (hin : ∀ op ∈ ops1 ++ ops2, ∀ a, op.does i a → a.StaysInHandler)
    (hreturn : Step w2 (.act i .sigreturn) w3) (hrun3 : Runs Step w3 ops3 w4)
    (hway : ∀ op ∈ ops3, ∀ a, op.does i a → a.StaysInKernel) {satp ksp handler hartid : Word}
    (hresume : Step w4 (.act i (.resume satp ksp handler hartid)) w5) :
    let p := w0.procs i
    let q := w5.procs i
    let keep := fun n ↦ hasSignal (u.procs i).sigPending n ∧
      ∀ op ∈ ops2, ∀ handler, op.does i (.signal n handler) → ignored handler n = false
    (q.loc = .user p.trapframe.regs p.trapframe.epc ∧ q.sigMask = p.sigMask ∧
        q.sigHandling = p.sigHandling ∧ q.sigCurrent = p.sigCurrent ∧
        ∀ n, signalValid n → keep n → hasSignal q.sigPending n) ∨
      ∃ k, signalValid k ∧ q.sigCurrent = k ∧ q.sigHandling ∧
        q.sigSavedTrapframe = p.trapframe ∧ hasSignal p.sigMask k = false ∧
        q.sigMask = p.sigMask ||| signalBit k ∧
        q.loc = .user (p.trapframe.redirect k (q.sigHandlers k)).regs (q.sigHandlers k) ∧
        ∀ n, signalValid n → n ≠ k → keep n → hasSignal q.sigPending n := by
  intro p q keep
  obtain ⟨n, hv, hmask, hin1⟩ := inHandler_of_deliver hdeliver hidle hcaught
  simp only [List.mem_append] at hin
  have hinu := runs_inHandler hrun1 (fun op hop ↦ hin op (.inl hop)) hin1
  have hin2 := runs_inHandler hrun2 (fun op hop ↦ hin op (.inr hop)) hinu
  have hproper : (w3.procs i).Proper :=
    runs_proper ((h.append (.cons hdeliver hrun1)).append (hrun2.append (.single hreturn))) i
  have hkept : ∀ k, signalValid k → keep k → (w2.procs i).Kept k := fun k hk hkeep ↦
    runs_kept hk hrun2 (fun op hop ↦ hin op (.inr hop)) hkeep.2 hinu hkeep.1
  have hret := runs_returning hrun3 hway
    (returning_of_sigreturn hreturn hin2 hv hmask hproper hkept)
  obtain ⟨hready, heq⟩ := procs_act hresume
  have hq : q = (w4.procs i).usertrapret satp ksp handler hartid := heq
  have hend := hret.way
  rw [Proc.Way, Proc.loc_ret hready] at hend
  obtain hr | ⟨k, hr⟩ := hend
  · left
    rw [hq]
    refine ⟨?_, hr.mask, ?_, ?_, hr.pending⟩
    · rw [Proc.usertrapret, hr.frame]
    · exact hr.handling.trans hidle.symm
    · exact hr.current.trans (runs_rested h i hidle).symm
  · right
    rw [hq]
    refine ⟨k, hr.valid, hr.current, hr.handling, hr.saved, hr.unmasked, hr.mask, ?_, hr.pending⟩
    rw [Proc.usertrapret, hr.frame]
    rfl

local instance slots_pos : NeZero (64 : Nat) := ⟨procs_ne_zero⟩

/-- The first process catches signals 2 and 15, sends itself signal 2 and is on its way back. -/
def caughtSignal : List (Op 64) :=
  [Op.act 0 .schedule, .act 0 (.resume 0 0 0 0), .act 0 (.trap .ecall),
      .act 0 (.signal 2 0x40)] ++
    backAndForth 0 ++ [Op.act 0 (.signal 15 0x80)] ++ backAndForth 0 ++
    [Op.send (.pid 1) 2, .sendNext 0, .act 0 (.result 0), .act 0 .store]

/-- Into the handler, with one system call there, in which `ops` happens. -/
def inHandlerCall (ops : List (Op 64)) : List (Op 64) :=
  [Op.act 0 .check, .act 0 (.resume 0 0 0 0), .act 0 (.trap .ecall)] ++ ops ++
    [Op.act 0 (.result 0), .act 0 .store, .act 0 .deliver, .act 0 .check, .act 0 (.resume 0 0 0 0)]

/-- The steps from the delivery of signal 2 to user mode behind `sigreturn`. -/
structure HandlerRun (ops : List (Op 64)) where
  w0 : World 64
  w1 : World 64
  u : World 64
  w2 : World 64
  w3 : World 64
  w4 : World 64
  w5 : World 64
  boot : Runs Step (boot 63 codePage MAXUVA) caughtSignal w0
  deliver : Step w0 (.act 0 .deliver) w1
  idle : (w0.procs 0).sigHandling = false
  caught : (w1.procs 0).sigHandling
  handler : Runs Step w1 (inHandlerCall ops) u
  trampoline : Runs Step u [.act 0 (.trap .ecall)] w2
  sigreturn : Step w2 (.act 0 .sigreturn) w3
  back : Runs Step w3 [.act 0 .store, .act 0 .deliver, .act 0 .check] w4
  resume : Step w4 (.act 0 (.resume 0 0 0 0)) w5

/-- A list of steps that can happen is such a run. -/
theorem exists_handlerRun (ops : List (Op 64)) (check : World 64 → World 64 → Bool)
    (h : (((boot 63 codePage MAXUVA).afterAll caughtSignal).any fun w0 ↦
      (w0.procs 0).sigHandling = false && (w0.after (.act 0 .deliver)).any fun w1 ↦
      (w1.procs 0).sigHandling && (w1.afterAll (inHandlerCall ops)).any fun u ↦
      (u.afterAll [.act 0 (.trap .ecall)]).any fun w2 ↦
      (w2.after (.act 0 .sigreturn)).any fun w3 ↦
      (w3.afterAll [.act 0 .store, .act 0 .deliver, .act 0 .check]).any fun w4 ↦
      (w4.after (.act 0 (.resume 0 0 0 0))).any (check w0)) = true) :
    ∃ r : HandlerRun ops, check r.w0 r.w5 := by
  simp only [Option.any_eq_true, Bool.and_eq_true, decide_eq_true_iff] at h
  obtain ⟨w0, h0, hidle, w1, h1, hcaught, u, hu, w2, h2, w3, h3, w4, h4, w5, h5, hcheck⟩ := h
  exact ⟨⟨w0, w1, u, w2, w3, w4, w5, runs_of_afterAll h0, h1, hidle, hcaught, runs_of_afterAll hu,
    runs_of_afterAll h2, h3, runs_of_afterAll h4, h5⟩, hcheck⟩

/-- A handler that makes a system call, and returns. -/
theorem sigreturn_round_trip_small : ∃ r : HandlerRun [],
    (r.w5.procs 0).loc = .user (r.w0.procs 0).trapframe.regs (r.w0.procs 0).trapframe.epc := by
  obtain ⟨r, hcheck⟩ := exists_handlerRun [] (fun _ w5 ↦ (w5.procs 0).sigHandling = false)
    (by decide +kernel)
  rw [decide_eq_true_iff] at hcheck
  have hin : ∀ op ∈ inHandlerCall [] ++ [Op.act 0 (.trap .ecall)], ∀ a,
      op.does 0 a → a.StaysInHandler := by
    simp [inHandlerCall, Op.does, Act.StaysInHandler]
  have hway : ∀ op ∈ [.act 0 .store, .act 0 .deliver, .act 0 .check], ∀ a : Act 64,
      Op.does 0 a op → a.StaysInKernel := by
    simp [Op.does, Act.StaysInKernel]
  obtain hback | ⟨k, -, -, hhandling, -⟩ := sigreturn_round_trip r.boot r.deliver r.idle r.caught
    r.handler r.trampoline hin r.sigreturn r.back hway r.resume
  · exact ⟨r, hback.1⟩
  · rw [hcheck] at hhandling
    cases hhandling

/-- Signal 15 arrives while the handler of signal 2 runs. -/
def secondSignal : List (Op 64) := [.send (.pid 1) 15, .sendNext 0]

/-- The user program counter, in user mode. -/
def userPc : Loc N → Option Word
  | .user _ pc => some pc
  | _ => none

/-- The user mode that `sigreturn` returns to is not the one that was saved: another caught signal
is delivered on the way, and its handler is entered. -/
theorem sigreturn_into_another_handler : ∃ r : HandlerRun secondSignal,
    (r.w5.procs 0).loc ≠ .user (r.w0.procs 0).trapframe.regs (r.w0.procs 0).trapframe.epc ∧
      (r.w5.procs 0).sigMask ≠ (r.w0.procs 0).sigMask ∧
      (r.w5.procs 0).sigHandling ≠ (r.w0.procs 0).sigHandling ∧
      (r.w5.procs 0).sigCurrent = 15 := by
  obtain ⟨r, hcheck⟩ := exists_handlerRun secondSignal
    (fun w0 w5 ↦
      userPc (w5.procs 0).loc ≠ some (w0.procs 0).trapframe.epc &&
      (w5.procs 0).sigMask ≠ (w0.procs 0).sigMask &&
      (w5.procs 0).sigHandling ≠ (w0.procs 0).sigHandling && (w5.procs 0).sigCurrent = 15)
    (by decide +kernel)
  simp only [Bool.and_eq_true, decide_eq_true_iff] at hcheck
  obtain ⟨⟨⟨hpc, hmask⟩, hhandling⟩, hcurrent⟩ := hcheck
  refine ⟨r, ?_, hmask, hhandling, hcurrent⟩
  intro hloc
  rw [hloc] at hpc
  exact hpc rfl

end World

end Xv6K210.Signal
