import Mathlib.Data.Set.Function
import Xv6K210.Base.Runs

/-!
# Waiting for a channel of the DMA controller

Source `kernel/driver/dmac.c:361–408` and `kernel/proc/proc.c:918–1005`. A process tests
its channel without a lock, then takes its own lock and sleeps. The interrupt handler of a channel
clears the interrupt and visits the processes one after the other, each under its lock. The steps of
the processes, of the handlers and of the hardware are taken in any order.
-/

namespace Xv6K210.Dma

open Base Function

/-- `NPROC`. -/
def NPROC : Nat := 64

/-- Where a process is in `dmac_wait_idle`. -/
inductive Pc where
  | out
  /-- before the test of the channel -/
  | test (c : Nat)
  /-- the channel was busy, the lock of the process is not held -/
  | window (c : Nat)
  /-- the lock of the process is held -/
  | locked (c : Nat)
  /-- asleep on `dmac_chan` -/
  | asleep (c : Nat)
  /-- woken up, before the release of the lock -/
  | woken (c : Nat)
  deriving DecidableEq, Repr

/-- The process waits for the channel, which was busy when it was tested. -/
def Pc.waits (c : Nat) : Pc → Bool
  | window c' => c' = c
  | locked c' => c' = c
  | asleep c' => c' = c
  | _ => false

/-- The channels, their interrupts, how far their handlers have come in `wakeup_reason`, and the
processes. -/
structure System where
  busy : Nat → Bool
  pending : Nat → Bool
  visiting : Nat → Option Nat
  pc : Nat → Pc

/-- A step. -/
inductive Act where
  /-- `dmac_channel_enable` -/
  | enable (c : Nat)
  /-- the channel becomes idle and raises its interrupt -/
  | complete (c : Nat)
  /-- `dmac_intr` up to `wakeup_reason` -/
  | intr (c : Nat)
  /-- a turn of the loop of `wakeup_reason` -/
  | visit (c : Nat)
  /-- the end of `wakeup_reason` -/
  | done (c : Nat)
  /-- the process calls `dmac_wait_idle` -/
  | call (p c : Nat)
  /-- `dmac_is_idle` -/
  | test (p : Nat)
  /-- `acquire` -/
  | lock (p : Nat)
  /-- `sleep`, which gives up the lock in the scheduler -/
  | sleep (p : Nat)
  /-- `sleep` returns, and the lock is released -/
  | resume (p : Nat)
  deriving DecidableEq, Repr

namespace System

/-- The process goes on to a place. -/
def goto (s : System) (p : Nat) (pc : Pc) : System := { s with pc := update s.pc p pc }

/-- The loop of `wakeup_reason` goes on. -/
def scan (s : System) (c : Nat) (k : Option Nat) : System :=
  { s with visiting := update s.visiting c k }

/-- The body of the loop of `wakeup_reason`, behind `acquire`. -/
def wake (s : System) (p : Nat) : System :=
  match s.pc p with
  | .asleep c => s.goto p (.woken c)
  | _ => s

/-- The lock of the process is held. -/
def held (s : System) (p : Nat) : Bool :=
  match s.pc p with
  | .locked _ => true
  | _ => false

/-- The state after a step, where the step can happen. -/
def after (s : System) : Act → Option System
  | .enable c =>
    if s.busy c then none else some { s with busy := update s.busy c true }
  | .complete c =>
    if s.busy c then
      some { s with
        busy := update s.busy c false
        pending := update s.pending c true }
    else none
  | .intr c =>
    if s.pending c = true ∧ s.visiting c = none then
      some ({ s with pending := update s.pending c false }.scan c (some 0))
    else none
  | .visit c =>
    match s.visiting c with
    | none => none
    | some p =>
      if p < NPROC ∧ s.held p = false then some ((s.wake p).scan c (some (p + 1))) else none
  | .done c => if s.visiting c = some NPROC then some (s.scan c none) else none
  | .call p c => if p < NPROC ∧ s.pc p = .out then some (s.goto p (.test c)) else none
  | .test p =>
    match s.pc p with
    | .test c => some (s.goto p (if s.busy c then .window c else .out))
    | _ => none
  | .lock p =>
    match s.pc p with
    | .window c => some (s.goto p (.locked c))
    | _ => none
  | .sleep p =>
    match s.pc p with
    | .locked c => some (s.goto p (.asleep c))
    | _ => none
  | .resume p =>
    match s.pc p with
    | .woken c => some (s.goto p (.test c))
    | _ => none

/-- One step. -/
def Step (s : System) (a : Act) (s' : System) : Prop := s.after a = some s'

/-- No channel is busy, and no process waits. -/
def boot : System where
  busy := fun _ ↦ false
  pending := fun _ ↦ false
  visiting := fun _ ↦ none
  pc := fun _ ↦ .out

/-- The completion interrupt of the idle channel has been handled. -/
def handled (s : System) (c : Nat) : Bool :=
  !s.busy c && !s.pending c && (s.visiting c).isNone

/-- No process sleeps for a channel that is idle and whose interrupt has been handled. -/
def NoneLost (s : System) : Prop := ∀ p c, s.pc p = .asleep c → s.handled c = false

/-- A handler passes over no process that has found the channel busy and does not sleep yet, while
the channel is idle. -/
def Careful (s : System) (a : Act) : Prop :=
  ∀ c p, a = .visit c → s.visiting c = some p → s.pc p = .window c →
    s.busy c = true ∨ s.pending c = true

/-- A step that meets the condition. -/
def CarefulStep (s : System) (a : Act) (s' : System) : Prop := Step s a s' ∧ s.Careful a

/-! ## Waiters are woken up -/

/-- A wakeup for the channel is still to reach the process. -/
def Watched (s : System) (c p : Nat) : Prop :=
  s.busy c = true ∨ s.pending c = true ∨ ∃ k, s.visiting c = some k ∧ k ≤ p

/-- A wakeup is still to reach every process that waits. -/
structure Sound (s : System) : Prop where
  bound : ∀ p, s.pc p ≠ .out → p < NPROC
  watched : ∀ p c, (s.pc p).waits c = true → s.Watched c p

variable {s s' : System} {a : Act}

private theorem Sound.noneLost (h : Sound s) : s.NoneLost := by
  intro p c hp
  have hwaits : (s.pc p).waits c = true := by
    rw [hp]
    exact decide_eq_true rfl
  unfold handled
  obtain hbusy | hpending | ⟨k, hk, -⟩ := h.watched p c hwaits
  · rw [hbusy]
    rfl
  · rw [hpending, Bool.not_true, Bool.and_false, Bool.false_and]
  · rw [hk, Option.isNone_some, Bool.and_false]

/-- The process is where it went. -/
@[simp] theorem goto_self (s : System) (p : Nat) (pc : Pc) : (s.goto p pc).pc p = pc :=
  update_self _ _ _

private theorem goto_of_ne (s : System) {p q : Nat} (pc : Pc) (h : q ≠ p) :
    (s.goto p pc).pc q = s.pc q :=
  update_of_ne h _ _

/-- One process goes on. It waits for no other channel than before, or for one that is busy. -/
theorem goto_sound (h : Sound s) {p : Nat} {pc : Pc} (hp : p < NPROC)
    (hpc : ∀ c, pc.waits c = true → (s.pc p).waits c = true ∨ s.busy c = true) :
    Sound (s.goto p pc) := by
  refine ⟨fun q hq ↦ ?_, fun q c hq ↦ ?_⟩
  · by_cases hqp : q = p
    · exact hqp ▸ hp
    · rw [goto_of_ne s pc hqp] at hq
      exact h.bound q hq
  · by_cases hqp : q = p
    · subst hqp
      rw [goto_self] at hq
      obtain hold | hbusy := hpc c hq
      · exact h.watched q c hold
      · exact .inl hbusy
    · rw [goto_of_ne s pc hqp] at hq
      exact h.watched q c hq

/-- A visit wakes up the process. -/
theorem wake_sound (h : Sound s) (p : Nat) : Sound (s.wake p) := by
  unfold wake
  split
  next c hc =>
    refine goto_sound h (h.bound p ?_) (by rintro c' ⟨⟩)
    rw [hc]
    rintro ⟨⟩
  next => exact h

/-- Behind a visit that is careful, the process waits for the channel only while a later interrupt
is to come. -/
theorem wake_passed {c p : Nat} (hheld : s.held p = false)
    (hcareful : s.pc p = .window c → s.busy c = true ∨ s.pending c = true)
    (hwaits : ((s.wake p).pc p).waits c = true) : s.busy c = true ∨ s.pending c = true := by
  unfold wake at hwaits
  unfold held at hheld
  cases hpc : s.pc p with
  | window c' =>
    rw [hpc] at hwaits
    dsimp only at hwaits
    rw [hpc] at hwaits
    obtain rfl := of_decide_eq_true hwaits
    exact hcareful hpc
  | locked c' =>
    rw [hpc] at hheld
    cases hheld
  | asleep c' =>
    rw [hpc] at hwaits
    dsimp only at hwaits
    rw [goto_self] at hwaits
    cases hwaits
  | out | test | woken =>
    rw [hpc] at hwaits
    dsimp only at hwaits
    rw [hpc] at hwaits
    cases hwaits

private theorem wake_frame (s : System) (p : Nat) :
    (s.wake p).busy = s.busy ∧ (s.wake p).pending = s.pending ∧
      (s.wake p).visiting = s.visiting := by
  unfold wake
  split
  · exact ⟨rfl, rfl, rfl⟩
  · exact ⟨rfl, rfl, rfl⟩

/-- A step of the hardware or of the handler of one channel. -/
theorem channel_sound (h : Sound s) (c : Nat) (hpc : s'.pc = s.pc)
    (hother : ∀ c', c' ≠ c → s'.busy c' = s.busy c' ∧ s'.pending c' = s.pending c' ∧
      s'.visiting c' = s.visiting c')
    (hown : ∀ p, (s.pc p).waits c = true → s.Watched c p → s'.Watched c p) : Sound s' := by
  refine ⟨fun p hp ↦ h.bound p (hpc ▸ hp), fun p c' hp ↦ ?_⟩
  rw [hpc] at hp
  have hwatched := h.watched p c' hp
  by_cases hc : c' = c
  · subst hc
    exact hown p hp hwatched
  · obtain ⟨hbusy, hpending, hvisiting⟩ := hother c' hc
    unfold Watched at hwatched ⊢
    rw [hbusy, hpending, hvisiting]
    exact hwatched

/-- A turn of `wakeup_reason` that is careful: whoever waits is still ahead of the handler. -/
theorem visit_sound (h : Sound s) {c p : Nat} (hvisit : s.visiting c = some p)
    (hheld : s.held p = false)
    (hcareful : s.pc p = .window c → s.busy c = true ∨ s.pending c = true) :
    Sound ((s.wake p).scan c (some (p + 1))) := by
  obtain ⟨hbusy, hpending, hvisiting⟩ := wake_frame s p
  refine channel_sound (wake_sound h p) c rfl
    (fun c' hc ↦ ⟨rfl, rfl, update_of_ne hc _ _⟩) ?_
  rintro q hq (hb | hq' | ⟨k, hk, hle⟩)
  · exact .inl hb
  · exact .inr (.inl hq')
  · rw [hvisiting, hvisit] at hk
    cases hk
    by_cases hqp : q = p
    · subst hqp
      obtain hb | hq' := wake_passed hheld hcareful hq
      · exact .inl ((congrFun hbusy c).trans hb)
      · exact .inr (.inl ((congrFun hpending c).trans hq'))
    · exact .inr (.inr ⟨p + 1, update_self _ _ _, by omega⟩)

/-- Behind the last turn every process has been visited. -/
theorem done_sound (h : Sound s) {c : Nat} (hend : s.visiting c = some NPROC) :
    Sound (s.scan c none) := by
  refine channel_sound h c rfl (fun c' hc ↦ ⟨rfl, rfl, update_of_ne hc _ _⟩) ?_
  rintro p hp (hbusy | hpending | ⟨k, hk, hle⟩)
  · exact .inl hbusy
  · exact .inr (.inl hpending)
  · rw [hend] at hk
    cases hk
    have hlt : p < NPROC := by
      refine h.bound p ?_
      intro hout
      rw [hout] at hp
      cases hp
    exact absurd hlt (Nat.not_lt_of_le hle)

/-- What a careful step preserves. -/
theorem sound_step (h : Sound s) (hcareful : s.Careful a) (hstep : Step s a s') : Sound s' := by
  cases a with
  | enable c =>
    simp only [Step, after] at hstep
    split at hstep
    next => cases hstep
    next =>
      cases hstep
      refine channel_sound h c rfl (fun c' hc ↦ ⟨update_of_ne hc _ _, rfl, rfl⟩) ?_
      exact fun p _ _ ↦ .inl (update_self _ _ _)
  | complete c =>
    simp only [Step, after] at hstep
    split at hstep
    next =>
      cases hstep
      refine channel_sound h c rfl
        (fun c' hc ↦ ⟨update_of_ne hc _ _, update_of_ne hc _ _, rfl⟩) ?_
      exact fun p _ _ ↦ .inr (.inl (update_self _ _ _))
    next => cases hstep
  | intr c =>
    simp only [Step, after] at hstep
    split at hstep
    next =>
      cases hstep
      refine channel_sound h c rfl
        (fun c' hc ↦ ⟨rfl, update_of_ne hc _ _, update_of_ne hc _ _⟩) ?_
      exact fun p _ _ ↦ .inr (.inr ⟨0, update_self _ _ _, Nat.zero_le p⟩)
    next => cases hstep
  | visit c =>
    simp only [Step, after] at hstep
    split at hstep
    next => cases hstep
    next p hvisit =>
      split at hstep
      next hp =>
        cases hstep
        exact visit_sound h hvisit hp.2 (hcareful c p rfl hvisit)
      next => cases hstep
  | done c =>
    simp only [Step, after] at hstep
    split at hstep
    next hend =>
      cases hstep
      exact done_sound h hend
    next => cases hstep
  | call p c =>
    simp only [Step, after] at hstep
    split at hstep
    next hp =>
      cases hstep
      exact goto_sound h hp.1 (by rintro c' ⟨⟩)
    next => cases hstep
  | test p =>
    simp only [Step, after] at hstep
    split at hstep
    next c hc =>
      cases hstep
      refine goto_sound h (h.bound p (by rw [hc]; rintro ⟨⟩)) fun c' hc' ↦ .inr ?_
      split at hc'
      next hbusy =>
        obtain rfl := of_decide_eq_true hc'
        exact hbusy
      next => cases hc'
    next => cases hstep
  | lock p =>
    simp only [Step, after] at hstep
    split at hstep
    next c hc =>
      cases hstep
      refine goto_sound h (h.bound p (by rw [hc]; rintro ⟨⟩)) fun c' hc' ↦ .inl ?_
      rw [hc]
      exact hc'
    next => cases hstep
  | sleep p =>
    simp only [Step, after] at hstep
    split at hstep
    next c hc =>
      cases hstep
      refine goto_sound h (h.bound p (by rw [hc]; rintro ⟨⟩)) fun c' hc' ↦ .inl ?_
      rw [hc]
      exact hc'
    next => cases hstep
  | resume p =>
    simp only [Step, after] at hstep
    split at hstep
    next c hc =>
      cases hstep
      exact goto_sound h (h.bound p (by rw [hc]; rintro ⟨⟩)) (by rintro c' ⟨⟩)
    next => cases hstep

/-- At first no interrupt is lost. -/
theorem sound_boot : Sound boot := ⟨fun _ h ↦ absurd rfl h, by rintro p c ⟨⟩⟩

/-- No wakeup is lost in a run in which no handler passes over a process that has found the channel
busy and does not sleep yet, while the channel is idle. -/
theorem careful_noneLost {as : List Act} (hrun : Runs CarefulStep boot as s) : s.NoneLost :=
  (hrun.invariant Sound (fun _ _ _ h hs ↦ sound_step h hs.2 hs.1) sound_boot).noneLost

/-- A process falls asleep before its channel is idle. -/
def asleepFirst : List Act :=
  [.enable 0, .call 0 0, .test 0, .lock 0, .sleep 0, .complete 0, .intr 0, .visit 0]

/-- The handler would pass over a process that has found the idle channel busy. -/
def careless (s : System) : Act → Bool
  | .visit c =>
    (s.visiting c).any fun p ↦ s.pc p = .window c && !s.busy c && !s.pending c
  | _ => false

private theorem careful_of_not_careless {s : System} {a : Act} (h : s.careless a = false) :
    s.Careful a := by
  rintro c p rfl hvisit hpc
  rw [careless, hvisit, Option.any_some, decide_eq_true hpc, Bool.true_and] at h
  cases hbusy : s.busy c with
  | true => exact .inl rfl
  | false =>
    rw [hbusy, Bool.not_false, Bool.true_and, Bool.not_eq_false'] at h
    exact .inr h

/-- A process is woken from its wait for channel 0. -/
theorem careful_noneLost_asleep : ∃ s : System, s.pc 0 = .woken 0 ∧ s.NoneLost := by
  have hstep : ∀ s a s', (if s.careless a then none else s.after a) = some s' →
      CarefulStep s a s' := by
    intro s a s' h
    rw [Option.ite_none_left_eq_some] at h
    exact ⟨h.2, careful_of_not_careless (Bool.eq_false_iff.mpr h.1)⟩
  obtain ⟨s, hrun, hwoken⟩ := exists_runs hstep boot asleepFirst (fun s ↦ s.pc 0 = .woken 0)
    (by decide +kernel)
  exact ⟨s, of_decide_eq_true hwoken, careful_noneLost hrun⟩

/-- The interrupt comes between the test and the lock, and its handler ends before the process
sleeps. -/
def interruptFirst : List Act :=
  [Act.enable 0, .call 0 0, .test 0, .complete 0, .intr 0] ++
    List.replicate NPROC (Act.visit 0) ++ [Act.done 0, .lock 0, .sleep 0]

/-- The process sleeps, the channel is idle, and its interrupt has been handled. -/
theorem interrupt_first_lost : ∃ s, Runs Step boot interruptFirst s ∧ ¬ s.NoneLost := by
  have hstep : ∀ s a s', System.after s a = some s' → Step s a s' := fun _ _ _ h ↦ h
  obtain ⟨s, hrun, hcheck⟩ := exists_runs hstep boot interruptFirst
    (fun s ↦ s.pc 0 = .asleep 0 ∧ s.handled 0 = true) (by decide +kernel)
  obtain ⟨hasleep, hhandled⟩ := of_decide_eq_true hcheck
  refine ⟨s, hrun, fun hnone ↦ ?_⟩
  rw [hnone 0 0 hasleep] at hhandled
  cases hhandled

end System

end Xv6K210.Dma
