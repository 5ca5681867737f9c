import Mathlib.Algebra.GroupWithZero.Nat
import Xv6K210.Signal.Sleep

/-!
# The exit status of a killed process

Source `kernel/proc/signal.c:74–135, 240–341` and `kernel/trap/trap.c:62–122`.
`SIGKILL` leaves three traces: the pending bit, `sig_term` and `killed`. The invariant says which of
them decide at each place between the send and the end of the process. `signal_reset_on_exec` clears
the first two and leaves the third, so that a process killed in the middle of `exec` ends with
status -1.
-/

namespace Xv6K210.Signal

open Xv6K210.Base

variable {N : Nat}

/-- The argument of a call of `exit` in progress. -/
def Loc.status : Loc N → Int
  | .exiting status | .leaving status _ => status
  | _ => 0

/-- What decides the exit status, at each place: the pending bit up to `signal_deliver`, then
`sig_term`, then the argument of `exit`, and last the status of the zombie. -/
def Proc.Decided (p : Proc N) : Prop :=
  match p.loc.phase with
  | .exiting | .leaving => p.loc.status = -SIGKILL
  | .gone => p.xstate = -SIGKILL
  | .delivered | .dying => True
  | _ => hasSignal p.sigPending SIGKILL

/-- A process that was sent `SIGKILL`, up to the end of its record. -/
structure Proc.Doomed (p : Proc N) : Prop where
  killed : p.killed
  term : p.sigTerm = SIGKILL
  live : p.state ≠ .unused
  zombie : p.state = .zombie → p.loc.phase = .gone
  decided : p.Decided

/-- The act is none of `signal_reset_on_exec`, `sys_exit` and `freeproc`. -/
def Act.Spares : Act N → Prop
  | .execReset | .exit _ | .free => False
  | _ => True

/-- `SIGKILL` is delivered before any other signal. -/
theorem signalDeliver_kill {p : Proc N} (h : hasSignal p.sigPending SIGKILL) :
    p.signalDeliver = (p.dropSignal SIGKILL).terminate SIGKILL := by
  have hdel : hasSignal p.deliverable SIGKILL :=
    (hasSignal_deliverable signalValid_sigkill).mpr ⟨h, .inr rfl⟩
  have hchoose : signalChoose p.deliverable = SIGKILL := by
    rw [signalChoose, if_pos hdel]
  rw [Proc.signalDeliver, hdel, hchoose]
  simp only [Bool.not_true, Bool.and_false, Bool.false_eq_true, if_false]
  rw [if_neg (by decide), Proc.deliverSignal, if_pos (.inl rfl)]

/-- `signal()` cannot take back a `SIGKILL`. -/
theorem signalSetHandler_kill {p : Proc N} (signum : Int) (handler : Word)
    (h : hasSignal p.sigPending SIGKILL) :
    hasSignal (p.signalSetHandler signum handler).1.sigPending SIGKILL := by
  rw [Proc.signalSetHandler]
  split
  next => exact h
  next hvalid =>
    have hv : signalValid signum := by simpa using hvalid
    split
    next => exact h
    next hkill =>
      split
      next => exact h
      next =>
        dsimp only
        split
        next =>
          rw [hasSignal_andNot hv signalValid_sigkill, h]
          simpa using hkill
        next => exact h

/-- `signal()` leaves `killed` and `sig_term` alone. -/
theorem signalSetHandler_frame (p : Proc N) (signum : Int) (handler : Word) :
    (p.signalSetHandler signum handler).1.killed = p.killed ∧
      (p.signalSetHandler signum handler).1.sigTerm = p.sigTerm := by
  rw [Proc.signalSetHandler]
  split
  next => exact ⟨rfl, rfl⟩
  next =>
    split
    next => exact ⟨rfl, rfl⟩
    next => split <;> exact ⟨rfl, rfl⟩

/-- `sigreturn` leaves `killed`, `sig_term` and the pending signals alone. -/
theorem signalSigreturn_frame (p : Proc N) : p.signalSigreturn.1.killed = p.killed ∧
    p.signalSigreturn.1.sigTerm = p.sigTerm ∧
    p.signalSigreturn.1.sigPending = p.sigPending := by
  rw [Proc.signalSigreturn]
  split <;> exact ⟨rfl, rfl, rfl⟩

/-! ### The place of a process -/

/-- A process in user mode has its registers there. -/
theorem Proc.loc_user {p : Proc N} (h : p.isAt .user) : ∃ regs pc, p.loc = .user regs pc := by
  have hphase := phase_of_isAt h
  cases hl : p.loc with
  | user regs pc => exact ⟨regs, pc, rfl⟩
  | _ => rw [hl] at hphase; cases hphase

/-- A system call that returned has a result. -/
theorem Proc.loc_sysret {p : Proc N} (h : p.isAt .sysret) : ∃ a0, p.loc = .sysret a0 := by
  have hphase := phase_of_isAt h
  cases hl : p.loc with
  | sysret a0 => exact ⟨a0, rfl⟩
  | _ => rw [hl] at hphase; cases hphase

/-- A place without data. -/
theorem Proc.loc_tail {p : Proc N} (h : p.isAt .tail) : p.loc = .tail := by
  have hphase := phase_of_isAt h
  cases hl : p.loc with
  | tail => rfl
  | _ => rw [hl] at hphase; cases hphase

/-- A place without data. -/
theorem Proc.loc_delivered {p : Proc N} (h : p.isAt .delivered) : p.loc = .delivered := by
  have hphase := phase_of_isAt h
  cases hl : p.loc with
  | delivered => rfl
  | _ => rw [hl] at hphase; cases hphase

/-- A place without data. -/
theorem Proc.loc_ret {p : Proc N} (h : p.isAt .ret) : p.loc = .ret := by
  have hphase := phase_of_isAt h
  cases hl : p.loc with
  | ret => rfl
  | _ => rw [hl] at hphase; cases hphase

/-- A call of `exit` has an argument. -/
theorem Proc.loc_exiting {p : Proc N} (h : p.isAt .exiting) :
    ∃ status, p.loc = .exiting status := by
  have hphase := phase_of_isAt h
  cases hl : p.loc with
  | exiting status => exact ⟨status, rfl⟩
  | _ => rw [hl] at hphase; cases hphase

/-- A call of `exit` has an argument, and then the parent. -/
theorem Proc.loc_leaving {p : Proc N} (h : p.isAt .leaving) :
    ∃ status parent, p.loc = .leaving status parent := by
  have hphase := phase_of_isAt h
  cases hl : p.loc with
  | leaving status parent => exact ⟨status, parent, rfl⟩
  | _ => rw [hl] at hphase; cases hphase

/-! ### The invariant -/

/-- An act that moves the process nowhere and takes no trace of the signal away. -/
theorem Proc.Doomed.stay {p q : Proc N} (h : p.Doomed) (hloc : q.loc = p.loc)
    (hx : q.xstate = p.xstate) (hk : q.killed = p.killed) (ht : q.sigTerm = p.sigTerm)
    (hu : q.state ≠ .unused) (hz : q.state = .zombie → p.state = .zombie)
    (hp : hasSignal p.sigPending SIGKILL → hasSignal q.sigPending SIGKILL) : q.Doomed where
  killed := by rw [hk, h.killed]
  term := by rw [ht, h.term]
  live := hu
  zombie := fun hq ↦ by rw [hloc]; exact h.zombie (hz hq)
  decided := by
    have hdec := h.decided
    rw [Proc.Decided] at hdec ⊢
    rw [hloc, hx]
    split at hdec
    all_goals first | exact hdec | exact hp hdec

/-- An act of the process itself, which runs. -/
theorem Proc.Doomed.move {p q : Proc N} (h : p.Doomed) (hrun : p.state = .running)
    (hk : q.killed = p.killed) (ht : q.sigTerm = p.sigTerm) (hs : q.state = p.state)
    (hdec : q.Decided) : q.Doomed where
  killed := by rw [hk, h.killed]
  term := by rw [ht, h.term]
  live := by rw [hs, hrun]; decide
  zombie := fun hq ↦ by rw [hs, hrun] at hq; cases hq
  decided := hdec

/-- Where a process is in the middle of a system call. -/
theorem Proc.Doomed.pending_of_phase {p : Proc N} (h : p.Doomed) {phase : Phase}
    (hat : p.isAt phase)
    (hearly : phase = .user ∨ phase = .syscall ∨ phase = .sysret ∨ phase = .fault ∨ phase = .tail ∨
      phase = .ret) : hasSignal p.sigPending SIGKILL := by
  have hdec := h.decided
  rw [Proc.Decided, Proc.phase_of_isAt hat] at hdec
  obtain rfl | rfl | rfl | rfl | rfl | rfl := hearly <;> exact hdec

/-- The acts of the process itself keep the status decided, `exec` and `exit` apart. -/
theorem doomed_effect {p : Proc N} {a : Act N} (hspares : a.Spares) (hready : a.ready p)
    (h : p.Doomed) : (a.effect p).Doomed := by
  cases a with
  | compute regs pc =>
    exact h.move (Proc.running_of_isAt hready) rfl rfl rfl (h.pending_of_phase hready (by simp))
  | trap cause =>
    have hrun := Proc.running_of_isAt hready
    have hpend := h.pending_of_phase hready (by simp)
    obtain ⟨regs, pc, hloc⟩ := Proc.loc_user hready
    change (p.usertrap cause).Doomed
    rw [Proc.usertrap, hloc]
    cases cause with
    | ecall =>
      dsimp only
      split
      next => exact h.move hrun rfl rfl rfl trivial
      next => exact h.move hrun rfl rfl rfl hpend
    | device => exact h.move hrun rfl rfl rfl hpend
    | exception => exact h.move hrun rfl rfl rfl hpend
  | resolve ok =>
    refine h.move (Proc.running_of_isAt hready) ?_ rfl rfl (h.pending_of_phase hready (by simp))
    change (p.killed || !ok) = p.killed
    rw [h.killed, Bool.true_or]
  | remap walk =>
    exact h.stay rfl rfl rfl rfl h.live id id
  | signal signum handler =>
    refine h.move (Proc.running_of_isAt hready) ?_ ?_ ?_ ?_
    · exact (signalSetHandler_frame p signum handler).1
    · exact (signalSetHandler_frame p signum handler).2
    · exact Act.effect_state p (.signal signum handler)
    · exact signalSetHandler_kill signum handler (h.pending_of_phase hready (by simp))
  | sigreturn =>
    have hpend := h.pending_of_phase hready (by simp)
    have hframe := signalSigreturn_frame p
    refine h.move (Proc.running_of_isAt hready) hframe.1 hframe.2.1 ?_ ?_
    · exact Act.effect_state p .sigreturn
    · change hasSignal p.signalSigreturn.1.sigPending SIGKILL
      rw [hframe.2.2, hpend]
  | execFrame epc sp => exact h.stay rfl rfl rfl rfl h.live id id
  | forked pid =>
    exact h.move (Proc.running_of_isAt hready) rfl rfl rfl (h.pending_of_phase hready (by simp))
  | result a0 =>
    exact h.move (Proc.running_of_isAt hready) rfl rfl rfl (h.pending_of_phase hready (by simp))
  | store =>
    have hpend := h.pending_of_phase hready (by simp)
    obtain ⟨a0, hloc⟩ := Proc.loc_sysret hready
    change p.storeResult.Doomed
    rw [Proc.storeResult, hloc]
    exact h.move (Proc.running_of_isAt hready) rfl rfl rfl hpend
  | deliver =>
    -- the pending bit is exchanged for `sig_term`, which is set again
    have hpend := h.pending_of_phase hready (by simp)
    change ({ p.signalDeliver with loc := .delivered } : Proc N).Doomed
    rw [signalDeliver_kill hpend]
    exact h.move (Proc.running_of_isAt hready) h.killed.symm h.term.symm rfl trivial
  | check =>
    change ({ p with loc := if p.killed then .dying else .ret } : Proc N).Doomed
    rw [if_pos h.killed]
    exact h.move (Proc.running_of_isAt hready) rfl rfl rfl trivial
  | exitStatus =>
    refine h.move (Proc.running_of_isAt hready) rfl rfl rfl ?_
    change p.signalExitStatus = -SIGKILL
    rw [Proc.signalExitStatus, h.term]
    decide
  | resume satp sp handler hartid =>
    exact h.move (Proc.running_of_isAt hready) rfl rfl rfl (h.pending_of_phase hready (by simp))
  | grab =>
    rw [Act.ready, Bool.and_eq_true] at hready
    obtain ⟨status, hloc⟩ := Proc.loc_exiting hready.1
    have hdec := h.decided
    rw [Proc.Decided, hloc] at hdec
    change p.grabParent.Doomed
    rw [Proc.grabParent, hloc]
    split
    next status' parent heq _ =>
      obtain rfl : status = status' := by simpa using heq
      exact h.move (Proc.running_of_isAt hready.1) rfl rfl rfl hdec
    next => exact h
  | zombie =>
    obtain ⟨status, parent, hloc⟩ := Proc.loc_leaving hready
    have hdec := h.decided
    rw [Proc.Decided, hloc] at hdec
    change p.becomeZombie.Doomed
    rw [Proc.becomeZombie, hloc]
    exact ⟨h.killed, h.term, (by rintro ⟨⟩), fun _ ↦ rfl, hdec⟩
  | sleep chan interruptible =>
    change (p.sleepOn chan interruptible).Doomed
    rw [Proc.sleepOn]
    split
    next => exact h
    next => exact h.stay rfl rfl rfl rfl (by rintro ⟨⟩) (by rintro ⟨⟩) id
  | yield => exact h.stay rfl rfl rfl rfl (by rintro ⟨⟩) (by rintro ⟨⟩) id
  | schedule =>
    change p.run.Doomed
    rw [Proc.run]
    split
    next => exact h.stay rfl rfl rfl rfl (by rintro ⟨⟩) (by rintro ⟨⟩) id
    next => exact h.stay rfl rfl rfl rfl (by rintro ⟨⟩) (by rintro ⟨⟩) id
  | mark signum =>
    rw [Act.ready, Bool.and_eq_true] at hready
    change (p.signalMarkLocked signum).Doomed
    rw [Proc.signalMarkLocked]
    split
    next => exact h
    next =>
      refine h.stay rfl rfl ?_ ?_ ?_ ?_ ?_
      · dsimp only
        split
        next => exact h.killed.symm
        next => rfl
      · dsimp only
        split
        next hkill => rw [hkill, h.term]
        next => rfl
      · dsimp only
        split
        next => rintro ⟨⟩
        next => exact h.live
      · dsimp only
        split
        next => rintro ⟨⟩
        next => exact id
      · intro hpend
        dsimp only
        rw [hasSignal_or hready.2 signalValid_sigkill, hpend, Bool.true_or]
  | wakeup chan =>
    change (p.wake chan).Doomed
    rw [Proc.wake]
    split
    next => exact h.stay rfl rfl rfl rfl (by rintro ⟨⟩) (by rintro ⟨⟩) id
    next => exact h
  | setpgid pgid => exact h.stay rfl rfl rfl rfl h.live id id
  | reparent initproc => exact h.stay rfl rfl rfl rfl h.live id id
  | born parent self pid =>
    rw [Act.ready, decide_eq_true_iff] at hready
    exact absurd hready h.live
  | execReset => cases hspares
  | exit status => cases hspares
  | free => cases hspares

/-! ### Runs -/

/-- A process without a kernel thread is unused or a zombie. -/
def Proc.Placed (p : Proc N) : Prop := p.loc.phase = .gone → p.state = .unused ∨ p.state = .zombie

/-- A process with a kernel thread. -/
theorem Proc.placed_of_ne {p : Proc N} (h : p.loc.phase ≠ .gone) : p.Placed :=
  fun hgone ↦ absurd hgone h

/-- A process in the kernel has a kernel thread. -/
theorem Proc.phase_of_inKernel {p : Proc N} (h : p.inKernel) : p.loc.phase ≠ .gone := by
  rw [inKernel, Bool.and_eq_true, decide_eq_true_iff] at h
  exact h.2

/-- The kernel thread of a process goes away when it becomes a zombie. -/
theorem placed_effect {p : Proc N} {a : Act N} (hready : a.ready p) (h : p.Placed) :
    (a.effect p).Placed := by
  cases a with
  | trap cause =>
    obtain ⟨regs, pc, hloc⟩ := Proc.loc_user hready
    change (p.usertrap cause).Placed
    rw [Proc.usertrap, hloc]
    cases cause with
    | ecall =>
      dsimp only
      split <;> exact Proc.placed_of_ne (by rintro ⟨⟩)
    | device => exact Proc.placed_of_ne (by rintro ⟨⟩)
    | exception => exact Proc.placed_of_ne (by rintro ⟨⟩)
  | remap walk => exact h
  | execFrame epc sp => exact h
  | execReset => exact h
  | store =>
    obtain ⟨a0, hloc⟩ := Proc.loc_sysret hready
    change p.storeResult.Placed
    rw [Proc.storeResult, hloc]
    exact Proc.placed_of_ne (by rintro ⟨⟩)
  | check =>
    change ({ p with loc := if p.killed then .dying else .ret } : Proc N).Placed
    split <;> exact Proc.placed_of_ne (by rintro ⟨⟩)
  | grab =>
    change p.grabParent.Placed
    rw [Proc.grabParent]
    split
    next => exact Proc.placed_of_ne (by rintro ⟨⟩)
    next => exact h
  | zombie =>
    obtain ⟨status, parent, hloc⟩ := Proc.loc_leaving hready
    change p.becomeZombie.Placed
    rw [Proc.becomeZombie, hloc]
    exact fun _ ↦ .inr rfl
  | sleep chan interruptible =>
    change (p.sleepOn chan interruptible).Placed
    rw [Proc.sleepOn]
    split
    next => exact h
    next => exact Proc.placed_of_ne (Proc.phase_of_inKernel (p := p) hready)
  | yield => exact Proc.placed_of_ne (Proc.phase_of_inKernel (p := p) hready)
  | schedule =>
    have hrun : p.state = .runnable := by simpa [Act.ready] using hready
    have hthread : p.loc.phase ≠ .gone := by
      intro hgone
      have hdead := h hgone
      rw [hrun] at hdead
      simp at hdead
    change p.run.Placed
    rw [Proc.run]
    split <;> exact Proc.placed_of_ne hthread
  | mark signum =>
    change (p.signalMarkLocked signum).Placed
    rw [Proc.signalMarkLocked]
    split
    next => exact h
    next =>
      intro hgone
      have hdead := h hgone
      dsimp only
      rw [if_neg]
      · exact hdead
      · intro hsleep
        rw [hsleep.1] at hdead
        simp at hdead
  | wakeup chan =>
    change (p.wake chan).Placed
    rw [Proc.wake]
    split
    next hsleep =>
      intro hgone
      have hdead := h hgone
      rw [hsleep.1] at hdead
      simp at hdead
    next => exact h
  | setpgid pgid => exact h
  | reparent initproc => exact h
  | free => exact fun _ ↦ .inl rfl
  | _ => exact Proc.placed_of_ne (by rintro ⟨⟩)

/-- The process is live and not in `exit`. -/
structure Proc.Alive (p : Proc N) : Prop where
  live : p.state ≠ .unused
  zombie : p.state ≠ .zombie
  exiting : p.loc.phase ≠ .exiting
  leaving : p.loc.phase ≠ .leaving

/-- The send of `SIGKILL` decides the exit status. -/
theorem doomed_mark {p : Proc N} (hproper : p.Proper) (hplaced : p.Placed) (halive : p.Alive) :
    (p.signalMarkLocked SIGKILL).Doomed := by
  have hcaught : ignored (p.sigHandlers SIGKILL) SIGKILL = false := by
    rw [hproper.kill]
    decide
  rw [Proc.signalMarkLocked, if_neg (by simp [hcaught])]
  refine ⟨rfl, rfl, ?_, ?_, ?_⟩
  · dsimp only
    split
    next => rintro ⟨⟩
    next => exact halive.live
  · intro hzombie
    dsimp only at hzombie
    split at hzombie
    next => cases hzombie
    next => exact absurd hzombie halive.zombie
  · have hpend : hasSignal (p.sigPending ||| signalBit SIGKILL) SIGKILL := by
      rw [hasSignal_or signalValid_sigkill signalValid_sigkill]
      simp
    rw [Proc.Decided]
    dsimp only
    split
    next h => exact absurd h halive.exiting
    next h => exact absurd h halive.leaving
    next h => exact absurd (hplaced h) (not_or.mpr ⟨halive.live, halive.zombie⟩)
    next => trivial
    next => trivial
    next => exact hpend

namespace World

/-- The step is the send of a signal to process `i`. -/
def Marks (w : World N) (op : Op N) (i : Fin N) (signum : Int) : Prop :=
  ∃ k s, op = .sendNext k ∧ w.sends[k]? = some s ∧ s.cursor = i ∧ s.hits (w.procs i) ∧
    s.signum = signum

/-- The record of the process that a send marks. -/
theorem procs_sendNext {w w' : World N} {k : Nat} {s : Send} {i : Fin N}
    (hs : w.sends[k]? = some s) (hcursor : s.cursor = i) (hhits : s.hits (w.procs i))
    (h : Step w (.sendNext k) w') : w'.procs i = (w.procs i).signalMarkLocked s.signum := by
  have hslot : ∀ hlt : s.cursor < N, (⟨s.cursor, hlt⟩ : Fin N) = i := fun _ ↦ Fin.ext hcursor
  have hlt : s.cursor < N := by rw [hcursor]; exact i.isLt
  rw [Step, after] at h
  simp only [hs, hlt, dif_pos, hslot, hhits, if_pos] at h
  rw [Option.map_eq_some_iff] at h
  obtain ⟨v, hv, rfl⟩ := h
  obtain ⟨-, hact⟩ | ⟨hne, -⟩ := act_cases hv i
  · exact (actStep_iff.mp hact).2
  · exact absurd rfl hne

/-- A step that spares a process keeps its exit status decided. -/
theorem Step.doomed {w w' : World N} {op : Op N} {i : Fin N} (h : Step w op w')
    (hspares : ∀ a, op.does i a → a.Spares) (hw : (w.procs i).Doomed) : (w'.procs i).Doomed := by
  apply h.invariant (fun p ↦ p.Doomed) ?_ hw
  intro p a hmay hready hp
  refine doomed_effect (Op.allowed_of_mayDo ?_ (fun _ ↦ trivial) hspares hmay) hready hp
  intro b halone hfree
  cases b with
  | free => exact absurd rfl hfree
  | execReset => cases halone
  | exit status => cases halone
  | _ => trivial

/-- After every run, a process without a kernel thread is unused or a zombie. -/
theorem runs_placed {walk : Word → Option Word} {sp : Word} {ops : List (Op (N + 1))}
    {w : World (N + 1)} (h : Runs Step (boot N walk sp) ops w) (j : Fin (N + 1)) :
    (w.procs j).Placed := by
  apply h.invariant (fun w ↦ ∀ j, (w.procs j).Placed)
  · intro w op w' hw hstep j
    exact hstep.invariant (fun p ↦ p.Placed) (fun _ _ _ hready hp ↦ placed_effect hready hp) (hw j)
  · intro j
    rw [boot]
    dsimp only
    by_cases hj : j = 0
    · subst hj
      rw [Function.update_self]
      exact Proc.placed_of_ne (by rintro ⟨⟩)
    · rw [Function.update_of_ne hj]
      exact fun _ ↦ .inl rfl

/-- `SIGKILL` is sent to a live process that is not in `exit`. In every run from there in which
the process neither calls `exit` nor has its signals reset by `exec`, it is a zombie only with the
status `-SIGKILL`. -/
theorem exit_status_of_sigkill {walk : Word → Option Word} {sp : Word} {ops : List (Op (N + 1))}
    {w : World (N + 1)} (h : Runs Step (boot N walk sp) ops w) {i : Fin (N + 1)}
    (halive : (w.procs i).Alive) {op : Op (N + 1)} {w1 : World (N + 1)}
    (hmarks : w.Marks op i SIGKILL) (hsend : Step w op w1) {ops' : List (Op (N + 1))}
    {w2 : World (N + 1)} (hrun : Runs Step w1 ops' w2)
    (hspares : ∀ op ∈ ops', ∀ a, op.does i a → a.Spares) (hend : (w2.procs i).state = .zombie) :
      (w2.procs i).xstate = -SIGKILL := by
  have hfirst : (w1.procs i).Doomed := by
    obtain ⟨k, s, rfl, hs, hcursor, hhits, hsignum⟩ := hmarks
    rw [procs_sendNext hs hcursor hhits hsend, hsignum]
    exact doomed_mark (runs_proper h i) (runs_placed h i) halive
  have hdoomed : (w2.procs i).Doomed :=
    hrun.invariant_of (fun w ↦ (w.procs i).Doomed) (fun _ _ _ hok hw hs ↦ hs.doomed hok hw)
      hspares hfirst
  have hdec := hdoomed.decided
  rw [Proc.Decided, hdoomed.zombie hend] at hdec
  exact hdec

/-- There are processes. -/
theorem procs_ne_zero : (64 : Nat) ≠ 0 := by decide

local instance procs_pos : NeZero (64 : Nat) := ⟨procs_ne_zero⟩

/-- The first process forks; its child enters `exec`, and the kill arrives there. -/
def killInExec : List (Op 64) :=
  [Op.act 0 .schedule, .act 0 (.resume 0 0 0 0), .act 0 (.trap .ecall), .fork 0 1,
    .act 1 .schedule, .act 1 (.resume 0 0 0 0), .act 1 (.trap .ecall)] ++
    backAndForth 0 ++ [Op.send (.pid 2) SIGKILL, .sendNext 0]

/-- The child finishes `exec` and is ended by `usertrap`. -/
def execAndDie : List (Op 64) :=
  [.act 1 (.execFrame 0 MAXUVA), .act 1 .execReset, .act 1 (.result 0), .act 1 .store,
    .act 1 .deliver, .act 1 .check, .act 1 .exitStatus, .act 1 .grab, .leave 1]

/-- What `killInExec` leads to: the child is in a system call, and the send is at its record. -/
theorem killInExec_reach (after : List (Op 64)) (check : World 64 → Bool)
    (h : (((boot 63 codePage MAXUVA).afterAll killInExec).any fun w ↦
      (w.procs 1).state = .running && (w.procs 1).loc.phase = .syscall &&
      (w.procs 1).killed = false && w.sends = [⟨.pid 2, SIGKILL, 1⟩] && (w.procs 1).pid = 2 &&
      (w.afterAll (.sendNext 0 :: after)).any check) = true) :
    ∃ w, Runs Step (boot 63 codePage MAXUVA) killInExec w ∧ (w.procs 1).Alive ∧
      (w.procs 1).killed = false ∧ w.Marks (.sendNext 0) 1 SIGKILL ∧
      ∃ w', Runs Step w (.sendNext 0 :: after) w' ∧ check w' := by
  obtain ⟨w, hrun, hcheck⟩ := exists_run _ _ _ h
  simp only [Bool.and_eq_true, decide_eq_true_iff] at hcheck
  obtain ⟨⟨⟨⟨⟨hstate, hphase⟩, hkilled⟩, hsends⟩, hpid⟩, hafter⟩ := hcheck
  refine ⟨w, hrun, ?_, hkilled, ?_, exists_run w (.sendNext 0 :: after) check hafter⟩
  · constructor
    · rw [hstate]; decide
    · rw [hstate]; decide
    · rw [hphase]; decide
    · rw [hphase]; decide
  · refine ⟨0, ⟨.pid 2, SIGKILL, 1⟩, rfl, ?_, rfl, ?_, rfl⟩
    · rw [hsends]; rfl
    · simp [Send.hits, Target.matches, hstate, hpid]

/-- A process that is killed in another system call ends with the status `-SIGKILL`. -/
theorem exit_status_of_sigkill_small : ∃ w, (w.procs 1).state = .zombie ∧
    (w.procs 1).xstate = -SIGKILL ∧ ∃ w0,
      Runs Step w0 ([Op.sendNext 0] ++ execAndDie.drop 2) w := by
  obtain ⟨w, hrun, halive, -, hmarks, w', hrun', hend⟩ :=
    killInExec_reach (execAndDie.drop 2) (fun w' ↦ (w'.procs 1).state = .zombie)
      (by decide +kernel)
  rw [decide_eq_true_iff] at hend
  cases hrun' with
  | cons hsend hrest =>
    have hspares : ∀ op ∈ execAndDie.drop 2, ∀ a, op.does 1 a → a.Spares := by
      simp [execAndDie, Op.does, Act.Spares]
    exact ⟨w', hend, exit_status_of_sigkill hrun halive hmarks hsend hrest hspares hend,
      w, .cons hsend hrest⟩

/-- A process that is sent `SIGKILL` in the middle of `exec`, and does not call `exit`, ends with
status -1. -/
theorem exit_status_of_kill_in_exec : ∃ w, Runs Step (boot 63 codePage MAXUVA) killInExec w ∧
    (w.procs 1).Alive ∧ (w.procs 1).killed = false ∧ w.Marks (.sendNext 0) 1 SIGKILL ∧
    ∃ w', Runs Step w (.sendNext 0 :: execAndDie) w' ∧ (∀ n, Op.act 1 (.exit n) ∉ execAndDie) ∧
      (w'.procs 1).state = .zombie ∧ (w'.procs 1).xstate = -1 ∧
      (w'.procs 1).xstate ≠ -SIGKILL := by
  obtain ⟨w, hrun, halive, hkilled, hmarks, w', hrun', hend⟩ :=
    killInExec_reach execAndDie (fun w' ↦ (w'.procs 1).state = .zombie && (w'.procs 1).xstate = -1)
      (by decide +kernel)
  simp only [Bool.and_eq_true, decide_eq_true_iff] at hend
  refine ⟨w, hrun, halive, hkilled, hmarks, w', hrun', ?_, hend.1, hend.2, ?_⟩
  · intro n
    simp [execAndDie]
  · rw [hend.2]
    decide

end World

end Xv6K210.Signal
