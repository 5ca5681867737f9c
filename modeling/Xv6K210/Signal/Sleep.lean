import Xv6K210.Signal.Invariants

/-!
# Interruptible sleep

Source `kernel/proc/proc.c:918–1005` and `kernel/proc/signal.c:119–214`. The test
for signals and the start of the sleep are one region under the lock of the process, and so are
the mark of a signal and the wakeup. No order of these regions leaves a process in an interruptible
sleep with a signal that it should see.
-/

namespace Xv6K210.Signal

open Xv6K210.Base

variable {N : Nat}

/-- The state of a process after an act. -/
def Act.state (p : Proc N) : Act N → ProcState
  | .zombie => p.becomeZombie.state
  | .sleep chan interruptible => (p.sleepOn chan interruptible).state
  | .yield => .runnable
  | .schedule => .running
  | .mark signum => (p.signalMarkLocked signum).state
  | .wakeup chan => (p.wake chan).state
  | .born _ _ _ => .runnable
  | .free => .unused
  | _ => p.state

/-- Only these acts write `p->state`. -/
theorem Act.effect_state (p : Proc N) (a : Act N) : (a.effect p).state = a.state p := by
  cases a with
  | trap cause =>
    change (p.usertrap cause).state = p.state
    rw [Proc.usertrap]
    split
    next =>
      cases cause with
      | ecall =>
        dsimp only
        split <;> rfl
      | device => rfl
      | exception => rfl
    next => rfl
  | signal signum handler =>
    change (p.signalSetHandler signum handler).1.state = p.state
    rw [Proc.signalSetHandler]
    split
    next => rfl
    next =>
      split
      next => rfl
      next => split <;> rfl
  | sigreturn =>
    change p.signalSigreturn.1.state = p.state
    rw [Proc.signalSigreturn]
    split <;> rfl
  | store =>
    change p.storeResult.state = p.state
    rw [Proc.storeResult]
    split <;> rfl
  | deliver =>
    change p.signalDeliver.state = p.state
    have hd := signalDeliver_spec p
    generalize p.signalDeliver = q at hd
    cases hd <;> rfl
  | grab =>
    change p.grabParent.state = p.state
    rw [Proc.grabParent]
    split <;> rfl
  | schedule =>
    change p.run.state = .running
    rw [Proc.run]
    split <;> rfl
  | _ => rfl

/-- A process that sleeps interruptibly is not killed and has no signal that may be delivered. -/
def Proc.Quiet (p : Proc N) : Prop :=
  p.state = .sleeping → p.interruptibleSleep → p.signalPendingLocked = false

/-- A process that does not sleep. -/
theorem Proc.quiet_of_ne {p : Proc N} (h : p.state ≠ .sleeping) : p.Quiet :=
  fun hsleep ↦ absurd hsleep h

/-- A process at a place of its own code runs. -/
theorem Proc.running_of_isAt {p : Proc N} {phase : Phase} (h : p.isAt phase) :
    p.state = .running := by
  rw [isAt, Bool.and_eq_true, decide_eq_true_iff] at h
  exact h.1

/-- A process at a place is at this place. -/
theorem Proc.phase_of_isAt {p : Proc N} {phase : Phase} (h : p.isAt phase) :
    p.loc.phase = phase := by
  rw [isAt, Bool.and_eq_true, decide_eq_true_iff, decide_eq_true_iff] at h
  exact h.2

/-- A process in the kernel runs. -/
theorem Proc.running_of_inKernel {p : Proc N} (h : p.inKernel) : p.state = .running := by
  rw [inKernel, Bool.and_eq_true, Bool.and_eq_true, decide_eq_true_iff] at h
  exact h.1.1

/-- `sleep_on` looks for signals under the lock under which it starts to sleep. -/
theorem quiet_sleepOn {p : Proc N} (chan : Chan N) (interruptible : Bool)
    (hrun : p.state = .running) : (p.sleepOn chan interruptible).Quiet := by
  rw [Proc.sleepOn]
  split
  next => exact Proc.quiet_of_ne (by rw [hrun]; decide)
  next hquiet =>
    intro _ hint
    change interruptible = true at hint
    rw [hint, Bool.true_and, Bool.not_eq_true] at hquiet
    exact hquiet

/-- A signal that is marked ends an interruptible sleep. -/
theorem quiet_mark {p : Proc N} (signum : Int) (h : p.Quiet) :
    (p.signalMarkLocked signum).Quiet := by
  rw [Proc.signalMarkLocked]
  split
  next => exact h
  next =>
    intro hsleep hint
    change p.interruptibleSleep = true at hint
    change (if p.state = .sleeping ∧ p.interruptibleSleep = true then .runnable else p.state) =
      ProcState.sleeping at hsleep
    split at hsleep
    next => cases hsleep
    next hawake => exact absurd ⟨hsleep, hint⟩ hawake

/-- No act leaves a process asleep with a signal that it should see. -/
theorem quiet_effect {p : Proc N} {a : Act N} (hready : a.ready p) (h : p.Quiet) :
    (a.effect p).Quiet := by
  cases a with
  | sleep chan interruptible =>
    exact quiet_sleepOn chan interruptible (Proc.running_of_inKernel hready)
  | mark signum => exact quiet_mark signum h
  | wakeup chan =>
    change (p.wake chan).Quiet
    rw [Proc.wake]
    split
    next => exact Proc.quiet_of_ne (by simp)
    next => exact h
  | setpgid pgid => exact h
  | reparent initproc => exact h
  | yield | schedule | born | free =>
    apply Proc.quiet_of_ne
    rw [Act.effect_state]
    rintro ⟨⟩
  | zombie =>
    apply Proc.quiet_of_ne
    change p.becomeZombie.state ≠ .sleeping
    rw [Proc.becomeZombie]
    split
    next => simp
    next => rw [Proc.running_of_isAt hready]; decide
  | remap walk =>
    apply Proc.quiet_of_ne
    rw [Act.effect_state]
    change p.state ≠ .sleeping
    rw [Proc.running_of_inKernel hready]
    decide
  | grab =>
    apply Proc.quiet_of_ne
    rw [Act.effect_state]
    change p.state ≠ .sleeping
    rw [Act.ready, Bool.and_eq_true] at hready
    rw [Proc.running_of_isAt hready.1]
    decide
  | _ =>
    -- the other acts are made by the process itself, which runs
    apply Proc.quiet_of_ne
    rw [Act.effect_state]
    change p.state ≠ .sleeping
    rw [Proc.running_of_isAt hready]
    decide

namespace World

/-- No step leaves a process asleep with a signal that it should see. -/
theorem Step.quiet {w w' : World N} {op : Op N} (h : Step w op w')
    (hw : ∀ j, (w.procs j).Quiet) (j : Fin N) : (w'.procs j).Quiet :=
  Step.invariant h (fun p ↦ p.Quiet) (fun _ _ _ hready hp ↦ quiet_effect hready hp) (hw j)

/-- After the boot no process sleeps. -/
theorem boot_quiet (walk : Word → Option Word) (sp : Word) (j : Fin (N + 1)) :
    ((boot N walk sp).procs j).Quiet := by
  apply Proc.quiet_of_ne
  rw [boot]
  dsimp only
  by_cases hj : j = 0
  · subst hj
    rw [Function.update_self]
    rintro ⟨⟩
  · rw [Function.update_of_ne hj]
    rintro ⟨⟩

/-- For any interleaving of sleeps, wakeups, sends, handler changes, deliveries and exits of any
number of processes: a process in an interruptible sleep is not killed, `SIGKILL` is not pending,
and every pending signal is masked. -/
theorem no_interruptible_sleeper {walk : Word → Option Word} {sp : Word} {ops : List (Op (N + 1))}
    {w : World (N + 1)} (h : Runs Step (boot N walk sp) ops w) (j : Fin (N + 1))
    (hsleep : (w.procs j).state = .sleeping) (hint : (w.procs j).interruptibleSleep) :
    (w.procs j).killed = false ∧ ∀ n, signalValid n → hasSignal (w.procs j).sigPending n →
      hasSignal (w.procs j).sigMask n ∧ n ≠ SIGKILL := by
  have hquiet : (w.procs j).Quiet :=
    h.invariant (fun w ↦ ∀ j, (w.procs j).Quiet) (fun _ _ _ hw hs ↦ hs.quiet hw)
      (boot_quiet walk sp) j
  have hnone := hquiet hsleep hint
  rw [Proc.signalPendingLocked, Bool.or_eq_false_iff] at hnone
  refine ⟨hnone.1, fun n hn hpend ↦ ?_⟩
  have hzero : (w.procs j).deliverable = 0 := by simpa using hnone.2
  have hdel := (hasSignal_deliverable (p := w.procs j) hn).not
  rw [hzero, hasSignal_zero, not_and_or, not_or] at hdel
  obtain hno | hblocked := hdel.mp (by simp)
  · exact absurd hpend hno
  · exact ⟨by simpa using hblocked.1, hblocked.2⟩

/-- The first process sleeps in `wait` after the boot. -/
theorem no_interruptible_sleeper_small :
    ∃ w, Runs Step (boot 63 codePage MAXUVA) [.act 0 .schedule, .act 0 (.resume 0 0 0 0),
        .act 0 (.trap .ecall), .act 0 (.sleep (.proc 0) true)] w ∧
      (w.procs 0).killed = false := by
  obtain ⟨w, hrun, hcheck⟩ := exists_run (boot 63 codePage MAXUVA)
    [.act 0 .schedule, .act 0 (.resume 0 0 0 0), .act 0 (.trap .ecall),
      .act 0 (.sleep (.proc 0) true)]
    (fun w ↦ (w.procs 0).state = .sleeping && (w.procs 0).interruptibleSleep)
    (by decide +kernel)
  rw [Bool.and_eq_true, decide_eq_true_iff] at hcheck
  exact ⟨w, hrun, (no_interruptible_sleeper hrun 0 hcheck.1 hcheck.2).1⟩

end World

end Xv6K210.Signal
