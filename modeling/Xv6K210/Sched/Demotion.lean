import Xv6K210.Sched.Mlfq

/-!
# Demotion and the time that was used

Source `kernel/proc/proc.c:268–341, 885–964` and `kernel/trap/trap.c:110–122, 207–223`.
A trap yields when it is a timer interrupt or when the processor was asked to reschedule.
`sched_on_yield` does not know which of the two it was. The timer interrupts that a process has
received are counted beside the scheduler's own counter.
-/

namespace Xv6K210.Sched

open Base Signal Function

/-- The scheduler, with the timer interrupts of each process since it entered its level, slept, was
promoted or was boosted, and the processes that a timer interrupt has stopped and that have not
yielded yet. -/
structure Clocked where
  world : World
  used : Nat → Nat
  due : Nat → Bool

/-- A trap or a step of the scheduler. -/
inductive Event where
  /-- `clockintr`, in a trap from a process -/
  | timer (c : Nat)
  /-- the end of a trap that yields -/
  | yield (c : Nat)
  /-- any other step -/
  | other (op : Op)
  deriving DecidableEq, Repr

namespace World

/-- `mlfq_boost_if_needed` boosts. -/
def boosts (w : World) : Bool := MLFQ_BOOST_INTERVAL ≤ w.ticks - w.mlfqLastBoostTick

/-- The process is put to sleep, promoted, boosted or new. -/
def resets (w : World) (op : Op) (j : Nat) : Bool :=
  match op with
  | .pick _ _ => w.boosts && (w.procs j).state ≠ .unused
  | .sleep c _ => (w.cpus c).proc = some j
  | .wakeup i chan reason =>
    i = j && ((w.procs j).state = .sleeping && (w.procs j).chan = some chan) &&
      (reason = .io || reason = .device)
  | .fork i => i = j
  | .free i => i = j
  | _ => false

/-- The process gives up its processor other than by `yield`. -/
def leaves (w : World) (op : Op) (j : Nat) : Bool :=
  match op with
  | .sleep c _ => (w.cpus c).proc = some j
  | .exit c => (w.cpus c).proc = some j
  | _ => false

end World

/-- The step is one of `yield`. -/
def Op.isYield : Op → Bool
  | yield _ => true
  | _ => false

namespace Clocked

/-- A trap that stops a process behind a timer interrupt goes on to `yield`. -/
def atLiberty (k : Clocked) (op : Op) : Bool :=
  match op with
  | .sleep c _ => ((k.world.cpus c).proc.map k.due).getD false = false
  | .exit c => ((k.world.cpus c).proc.map k.due).getD false = false
  | _ => true

/-- The state after an event, where it can happen. -/
def after (n : Nat) (k : Clocked) : Event → Option Clocked
  | .timer c =>
    match (k.world.cpus c).proc with
    | none => none
    | some i =>
      if (k.world.procs i).state = .running ∧ k.due i = false then
        (k.world.after n .tick).map fun w ↦
          { world := w
            used := update k.used i (k.used i + 1)
            due := update k.due i true }
      else none
  | .yield c =>
    match (k.world.cpus c).proc with
    | none => none
    | some i =>
      if (k.world.procs i).state = .running ∧
        (k.due i = true ∨ (k.world.cpus c).needResched = true) then
        (k.world.after n (.yield c)).map fun w ↦
          { world := w
            used := fun j ↦
              if (w.procs j).queueLevel = (k.world.procs j).queueLevel then k.used j else 0
            due := update k.due i false }
      else none
  | .other op =>
    if op.isYield = false ∧ k.atLiberty op = true then
      (k.world.after n op).map fun w ↦
        { k with world := w, used := fun j ↦ if k.world.resets op j then 0 else k.used j }
    else none

/-- One event. -/
def Step (n : Nat) (k : Clocked) (e : Event) (k' : Clocked) : Prop := k.after n e = some k'

/-- After `procinit`. -/
def boot : Clocked where
  world := .boot
  used := fun _ ↦ 0
  due := fun _ ↦ false

/-- The process that yields was stopped by a timer interrupt, and no process is boosted between that
interrupt and its `yield`. -/
def Charged (k : Clocked) (e : Event) : Prop :=
  match e with
  | .yield c => ∀ i, (k.world.cpus c).proc = some i → k.due i = true
  | .other (.pick _ _) => k.world.boosts = true → ∀ j, k.due j = false
  | _ => True

/-- An event that meets the condition. -/
def ChargedStep (n : Nat) (k : Clocked) (e : Event) (k' : Clocked) : Prop :=
  Step n k e k' ∧ k.Charged e

end Clocked

/-! ## What a step does to one process -/

/-- A step other than `yield` takes a process to no lower level and charges it nothing. -/
structure Uncharged (p q : Proc) : Prop where
  level : q.queueLevel ≤ p.queueLevel
  ticks : q.schedTicks ≤ p.schedTicks

/-- Nothing is charged when nothing happens. -/
theorem Uncharged.refl (p : Proc) : Uncharged p p := ⟨Nat.le_refl _, Nat.le_refl _⟩

private theorem uncharged_fresh (p : Proc) (state : ProcState) : Uncharged p (.fresh state) :=
  ⟨Nat.zero_le _, Nat.zero_le _⟩

private theorem uncharged_boost (p : Proc) : Uncharged p p.boost := by
  rw [Proc.boost]
  split
  · exact .refl p
  · exact ⟨Nat.zero_le _, Nat.zero_le _⟩

private theorem uncharged_promote (p : Proc) (reason : WakeupReason) :
    Uncharged p (p.promote reason) := by
  refine ⟨?_, Nat.zero_le _⟩
  rw [Proc.promote]
  dsimp only
  split
  · exact Nat.sub_le _ _
  · exact Nat.le_refl _

namespace World

variable {n : Nat} {w w' : World}

/-- The process just written. -/
theorem setProc_self (w : World) (i : Nat) (p : Proc) : (w.setProc i p).procs i = p :=
  update_self _ _ _

/-- The record of one process is replaced. -/
theorem setProc_procs (w : World) (i j : Nat) (p : Proc) :
    ((w.setProc i p).procs j = p ∧ j = i) ∨ ((w.setProc i p).procs j = w.procs j ∧ j ≠ i) := by
  by_cases hj : j = i
  · subst hj
    exact .inl ⟨w.setProc_self j p, rfl⟩
  · exact .inr ⟨update_of_ne hj _ _, hj⟩

/-- What a step other than `yield` does to a process. -/
structure Spares (w : World) (op : Op) (w' : World) (j : Nat) : Prop where
  uncharged : Uncharged (w.procs j) (w'.procs j)
  reset : w.resets op j = true → (w'.procs j).schedTicks = 0
  stays : (w.procs j).state = .running → w.leaves op j = false → (w'.procs j).state = .running

/-- A step that replaces the record of one process spares the others. -/
theorem spares_of_setProc {op : Op} {i j : Nat} {p : Proc}
    (hprocs : w'.procs = (w.setProc i p).procs) (hother : j ≠ i → w.resets op j = false)
    (h : j = i → Uncharged (w.procs j) p ∧ (w.resets op j = true → p.schedTicks = 0) ∧
      ((w.procs j).state = .running → w.leaves op j = false → p.state = .running)) :
    Spares w op w' j := by
  obtain ⟨heq, hj⟩ | ⟨heq, hj⟩ := w.setProc_procs i j p
  · obtain ⟨huncharged, hreset, hstays⟩ := h hj
    rw [← heq, ← hprocs] at huncharged hreset hstays
    exact ⟨huncharged, hreset, hstays⟩
  · rw [← hprocs] at heq
    refine ⟨heq ▸ .refl _, fun hreset ↦ ?_, fun hrun _ ↦ ?_⟩
    · rw [hother hj] at hreset
      cases hreset
    · rw [heq]
      exact hrun

/-- The process of a processor leaves it. -/
theorem leave_procs {c : Nat} {f : Proc → Proc} (h : w.leave c f = some w') :
    ∃ i, (w.cpus c).proc = some i ∧ w'.procs = (w.setProc i (f (w.procs i))).procs := by
  rw [leave] at h
  split at h
  next => cases h
  next i hi =>
    cases h
    exact ⟨i, hi, rfl⟩

/-- A wakeup with a promotion writes the record of the process. -/
theorem promoteOnWakeup_procs (w : World) (i : Nat) (p : Proc) {reason : WakeupReason}
    (hreason : reason = .io ∨ reason = .device) :
    ((w.setProc i p).promoteOnWakeup i reason).procs = (w.setProc i (p.promote reason)).procs := by
  rw [promoteOnWakeup, if_pos hreason]
  dsimp only
  rw [(askResched_frame _ _ _).1, setProc_self]
  exact update_idem _ _ _

/-- A wakeup touches the process alone. -/
theorem wakeup_spares (w : World) (i chan : Nat) (reason : WakeupReason) (j : Nat) :
    Spares w (.wakeup i chan reason) (w.wakeup i chan reason) j := by
  have hother : j ≠ i → w.resets (.wakeup i chan reason) j = false := by
    intro hj
    simp [resets, hj.symm]
  rw [wakeup]
  split
  next hasleep =>
    have hstays : ∀ q : Proc, j = i → (w.procs j).state = .running →
        w.leaves (.wakeup i chan reason) j = false → q.state = .running := by
      rintro q rfl hrun -
      rw [hrun] at hasleep
      cases hasleep.1
    by_cases hreason : reason = .io ∨ reason = .device
    · refine spares_of_setProc (promoteOnWakeup_procs w i _ hreason) hother ?_
      rintro rfl
      have hlevel := (uncharged_promote (w.procs j) reason).level
      exact ⟨⟨hlevel, Nat.zero_le _⟩, fun _ ↦ rfl, hstays _ rfl⟩
    · rw [promoteOnWakeup, if_neg hreason]
      refine spares_of_setProc rfl hother ?_
      rintro rfl
      refine ⟨⟨Nat.le_refl _, Nat.le_refl _⟩, fun hreset ↦ ?_, hstays _ rfl⟩
      simp only [resets, Bool.and_eq_true, Bool.or_eq_true, decide_eq_true_eq] at hreset
      exact absurd hreset.2 hreason
  next hawake =>
    refine ⟨.refl _, fun hreset ↦ ?_, fun hrun _ ↦ hrun⟩
    simp only [resets, Bool.and_eq_true, decide_eq_true_eq] at hreset
    obtain ⟨⟨rfl, hasleep⟩, -⟩ := hreset
    exact absurd hasleep hawake

/-- A pick touches the process that it runs, and what its boost touches. -/
theorem schedule_procs (n : Nat) (w : World) (c j : Nat) :
    ((w.schedule n c).2.procs j).queueLevel = (w.boostIfNeeded.procs j).queueLevel ∧
      ((w.schedule n c).2.procs j).schedTicks = (w.boostIfNeeded.procs j).schedTicks ∧
      (((w.schedule n c).2.procs j).state = (w.boostIfNeeded.procs j).state ∨
        ((w.schedule n c).2.procs j).state = .running) := by
  rw [schedule, pickNextProcMlfq]
  dsimp only
  cases w.boostIfNeeded.choose n with
  | none => exact ⟨rfl, rfl, .inl rfl⟩
  | some found =>
    dsimp only [setCpu, setProc]
    by_cases hj : j = found.2
    · subst hj
      rw [update_self, update_self]
      exact ⟨rfl, rfl, .inr rfl⟩
    · rw [update_of_ne hj, update_of_ne hj]
      exact ⟨rfl, rfl, .inl rfl⟩

/-- A boost resets every process. -/
theorem boostIfNeeded_procs (w : World) (j : Nat) :
    Uncharged (w.procs j) (w.boostIfNeeded.procs j) ∧
      (w.boosts = true → (w.procs j).state ≠ .unused → (w.boostIfNeeded.procs j).schedTicks =
        0) := by
  rw [boostIfNeeded]
  split
  next hlt =>
    refine ⟨.refl _, fun hboosts ↦ ?_⟩
    exact absurd hlt (UInt32.not_lt.mpr (of_decide_eq_true hboosts))
  next =>
    refine ⟨uncharged_boost _, fun _ hused ↦ ?_⟩
    dsimp only
    rw [Proc.boost, if_neg hused]

private theorem schedule_spares (n : Nat) (w : World) (c : Nat) (r : Option Nat) (j : Nat) :
    Spares w (.pick c r) (w.schedule n c).2 j := by
  obtain ⟨hlevel, hticks, hstate⟩ := schedule_procs n w c j
  obtain ⟨huncharged, hreset⟩ := boostIfNeeded_procs w j
  refine ⟨⟨hlevel ▸ huncharged.level, hticks ▸ huncharged.ticks⟩, fun h ↦ ?_, fun hrun _ ↦ ?_⟩
  · simp only [resets, Bool.and_eq_true, decide_eq_true_eq] at h
    rw [hticks]
    exact hreset h.1 h.2
  · obtain hsame | hrunning := hstate
    · rw [hsame, boostIfNeeded_state]
      exact hrun
    · exact hrunning

/-- A step other than `yield` charges no process. -/
theorem spares_of_step {op : Op} (h : Step n w op w') (hop : op.isYield = false) (j : Nat) :
    Spares w op w' j := by
  cases op with
  | tick =>
    cases h
    exact ⟨.refl _, by rintro ⟨⟩, fun hrun _ ↦ hrun⟩
  | account i =>
    simp only [Step, after] at h
    split at h
    next =>
      cases h
      refine spares_of_setProc rfl (fun _ ↦ rfl) ?_
      rintro rfl
      exact ⟨⟨Nat.le_refl _, Nat.le_refl _⟩, by rintro ⟨⟩, fun hrun _ ↦ hrun⟩
    next =>
      cases h
      exact ⟨.refl _, by rintro ⟨⟩, fun hrun _ ↦ hrun⟩
  | pick c r =>
    simp only [Step, after, Option.ite_none_right_eq_some] at h
    obtain ⟨-, heq⟩ := h
    cases heq
    exact schedule_spares n w c r j
  | yield c => cases hop
  | sleep c chan =>
    simp only [Step, after] at h
    obtain ⟨i, hi, hprocs⟩ := leave_procs h
    refine spares_of_setProc hprocs (fun hj ↦ ?_) ?_
    · simp [resets, hi, hj.symm]
    · rintro rfl
      refine ⟨⟨Nat.le_refl _, Nat.zero_le _⟩, fun _ ↦ rfl, fun _ hleaves ↦ ?_⟩
      rw [leaves, hi, decide_eq_true rfl] at hleaves
      cases hleaves
  | exit c =>
    simp only [Step, after] at h
    obtain ⟨i, hi, hprocs⟩ := leave_procs h
    refine spares_of_setProc hprocs (fun _ ↦ rfl) ?_
    rintro rfl
    refine ⟨⟨Nat.le_refl _, Nat.le_refl _⟩, by rintro ⟨⟩, fun _ hleaves ↦ ?_⟩
    rw [leaves, hi, decide_eq_true rfl] at hleaves
    cases hleaves
  | wakeup i chan reason =>
    cases h
    exact wakeup_spares w i chan reason j
  | rouse i =>
    simp only [Step, after, Option.ite_none_right_eq_some] at h
    obtain ⟨hasleep, heq⟩ := h
    cases heq
    refine spares_of_setProc rfl (fun _ ↦ rfl) ?_
    rintro rfl
    refine ⟨⟨Nat.le_refl _, Nat.le_refl _⟩, by rintro ⟨⟩, fun hrun _ ↦ ?_⟩
    rw [hasleep] at hrun
    cases hrun
  | fork i =>
    simp only [Step, after, Option.ite_none_right_eq_some] at h
    obtain ⟨hunused, heq⟩ := h
    cases heq
    refine spares_of_setProc rfl (fun hj ↦ decide_eq_false hj.symm) ?_
    rintro rfl
    refine ⟨uncharged_fresh _ _, fun _ ↦ rfl, fun hrun _ ↦ ?_⟩
    rw [hunused] at hrun
    cases hrun
  | free i =>
    simp only [Step, after, Option.ite_none_right_eq_some] at h
    obtain ⟨hzombie, heq⟩ := h
    cases heq
    refine spares_of_setProc rfl (fun hj ↦ decide_eq_false hj.symm) ?_
    rintro rfl
    refine ⟨uncharged_fresh _ _, fun _ ↦ rfl, fun hrun _ ↦ ?_⟩
    rw [hzombie] at hrun
    cases hrun

end World

/-- A yield charges a tick. With the last tick of its slice the process moves to the next level and
begins a new slice. -/
theorem schedOnYield_spec (p : Proc) :
    (mlfqTimeSlices p.queueLevel ≤ p.schedTicks + 1 ∧ p.schedOnYield.schedTicks = 0) ∨
      (p.schedOnYield.queueLevel = p.queueLevel ∧
        p.schedOnYield.schedTicks = p.schedTicks + 1) := by
  rw [Proc.schedOnYield]
  dsimp only
  split
  next hslice => exact .inl ⟨hslice, rfl⟩
  next => exact .inr ⟨rfl, rfl⟩

namespace Clocked

open World

variable {n : Nat} {k k' : Clocked}

/-- The ticks that a process is charged, and the one that it is going to be charged, are ticks that
it received. -/
structure Accounted (k : Clocked) : Prop where
  used : ∀ j, (k.world.procs j).schedTicks + (k.due j).toNat ≤ k.used j
  due : ∀ j, k.due j = true → (k.world.procs j).state = .running

/-- A process that is stopped by a timer interrupt does not give up its processor first. -/
theorem not_due_of_leaves {op : Op} {j : Nat} (hliberty : k.atLiberty op = true)
    (hleaves : k.world.leaves op j = true) : k.due j = false := by
  cases op with
  | sleep c chan =>
    rw [atLiberty, of_decide_eq_true hleaves] at hliberty
    exact of_decide_eq_true hliberty
  | exit c =>
    rw [atLiberty, of_decide_eq_true hleaves] at hliberty
    exact of_decide_eq_true hliberty
  | _ => cases hleaves

/-- A process is not reset between a timer interrupt and its `yield`. -/
theorem not_due_of_resets {op : Op} {j : Nat} {w : World} (h : Accounted k)
    (hstep : World.Step n k.world op w) (hliberty : k.atLiberty op = true)
    (hcharged : k.Charged (.other op)) (hresets : k.world.resets op j = true) :
    k.due j = false := by
  have hstopped : (k.world.procs j).state ≠ .running → k.due j = false :=
    fun hne ↦ Bool.eq_false_iff.mpr fun hdue ↦ hne (h.due j hdue)
  cases op with
  | pick c r =>
    rw [resets, Bool.and_eq_true] at hresets
    exact hcharged hresets.1 j
  | sleep c chan => exact not_due_of_leaves hliberty hresets
  | wakeup i chan reason =>
    simp only [resets, Bool.and_eq_true, decide_eq_true_eq] at hresets
    refine hstopped ?_
    rw [hresets.1.2.1]
    decide
  | fork i =>
    obtain rfl := of_decide_eq_true hresets
    simp only [World.Step, World.after, Option.ite_none_right_eq_some] at hstep
    refine hstopped ?_
    rw [hstep.1]
    decide
  | free i =>
    obtain rfl := of_decide_eq_true hresets
    simp only [World.Step, World.after, Option.ite_none_right_eq_some] at hstep
    refine hstopped ?_
    rw [hstep.1]
    decide
  | _ => cases hresets

/-- An event is a timer interrupt, a yield or a step that charges nothing. -/
theorem step_cases {e : Event} (h : Step n k e k') :
    (∃ c i, e = .timer c ∧ k.due i = false ∧ (k.world.procs i).state = .running ∧
        k' = { world := { k.world with ticks := k.world.ticks + 1 }
               used := update k.used i (k.used i + 1)
               due := update k.due i true }) ∨
      (∃ c i w, e = .yield c ∧ (k.world.cpus c).proc = some i ∧
        w.procs = (k.world.setProc i
          { (k.world.procs i).schedOnYield with state := .runnable }).procs ∧
        k' = { world := w
               used := fun j ↦
                 if (w.procs j).queueLevel = (k.world.procs j).queueLevel then k.used j else 0
               due := update k.due i false }) ∨
      ∃ op w, e = .other op ∧ op.isYield = false ∧ k.atLiberty op = true ∧
        World.Step n k.world op w ∧
        k' = { k with
          world := w,
          used := fun j ↦ if k.world.resets op j then 0 else k.used j } := by
  cases e with
  | timer c =>
    simp only [Step, after] at h
    split at h
    next => cases h
    next i hi =>
      rw [Option.ite_none_right_eq_some] at h
      obtain ⟨⟨hrun, hdue⟩, heq⟩ := h
      cases heq
      exact .inl ⟨c, i, rfl, hdue, hrun, rfl⟩
  | yield c =>
    simp only [Step, after] at h
    split at h
    next => cases h
    next i hi =>
      rw [Option.ite_none_right_eq_some] at h
      obtain ⟨-, heq⟩ := h
      obtain ⟨w, hw, rfl⟩ := Option.map_eq_some_iff.mp heq
      simp only [World.after] at hw
      obtain ⟨i', hi', hprocs⟩ := leave_procs hw
      rw [hi] at hi'
      cases hi'
      exact .inr (.inl ⟨c, i, w, rfl, hi, hprocs, rfl⟩)
  | other op =>
    simp only [Step, after, Option.ite_none_right_eq_some] at h
    obtain ⟨⟨hop, hliberty⟩, heq⟩ := h
    obtain ⟨w, hw, rfl⟩ := Option.map_eq_some_iff.mp heq
    exact .inr (.inr ⟨op, w, rfl, hop, hliberty, hw, rfl⟩)

/-- The yield of one process touches no other. -/
theorem yield_procs (w : World) (i j : Nat) :
    j = i ∨ (w.setProc i { (w.procs i).schedOnYield with state := .runnable }).procs j =
      w.procs j := by
  obtain ⟨-, hj⟩ | ⟨heq, -⟩ :=
    w.setProc_procs i j { (w.procs i).schedOnYield with state := .runnable }
  · exact .inl hj
  · exact .inr heq

/-- An event that meets the condition charges what was used. -/
theorem accounted_step {e : Event} (h : Accounted k) (hstep : ChargedStep n k e k') :
    Accounted k' := by
  obtain ⟨hstep, hcharged⟩ := hstep
  obtain ⟨c, i, rfl, hdue, hrun, rfl⟩ | ⟨c, i, w, rfl, hi, hprocs, rfl⟩ |
    ⟨op, w, rfl, hop, hliberty, hw, rfl⟩ := step_cases hstep
  · refine ⟨fun j ↦ ?_, fun j hj ↦ ?_⟩
    · have hused := h.used j
      dsimp only
      by_cases hj : j = i
      · subst hj
        rw [hdue] at hused
        rw [update_self, update_self]
        exact Nat.succ_le_succ hused
      · rw [update_of_ne hj, update_of_ne hj]
        exact hused
    · dsimp only at hj ⊢
      by_cases hji : j = i
      · rw [hji]
        exact hrun
      · rw [update_of_ne hji] at hj
        exact h.due j hj
  · have hdue := hcharged i hi
    refine ⟨fun j ↦ ?_, fun j hj ↦ ?_⟩
    · have hused := h.used j
      dsimp only
      rw [hprocs]
      by_cases hji : j = i
      · subst hji
        rw [hdue] at hused
        rw [setProc_self, update_self]
        obtain ⟨-, hticks⟩ | ⟨hlevel, hticks⟩ := schedOnYield_spec (k.world.procs j)
        · dsimp only
          rw [hticks]
          exact Nat.zero_le _
        · dsimp only
          rw [hlevel, hticks, if_pos rfl]
          exact hused
      · have hsame := (yield_procs k.world i j).resolve_left hji
        rw [hsame, if_pos rfl, update_of_ne hji]
        exact hused
    · dsimp only at hj ⊢
      have hji : j ≠ i := by
        rintro rfl
        rw [update_self] at hj
        cases hj
      rw [update_of_ne hji] at hj
      rw [hprocs, (yield_procs k.world i j).resolve_left hji]
      exact h.due j hj
  · refine ⟨fun j ↦ ?_, fun j hj ↦ ?_⟩
    · have hspares := spares_of_step hw hop j
      dsimp only
      cases hresets : k.world.resets op j with
      | true =>
        rw [hspares.reset hresets, not_due_of_resets h hw hliberty hcharged hresets]
        exact Nat.zero_le _
      | false =>
        rw [if_neg Bool.false_ne_true]
        exact Nat.le_trans (Nat.add_le_add_right hspares.uncharged.ticks _) (h.used j)
    · refine (spares_of_step hw hop j).stays (h.due j hj) ?_
      by_contra hleaves
      rw [Bool.not_eq_false] at hleaves
      rw [not_due_of_leaves hliberty hleaves] at hj
      cases hj

private theorem accounted_boot : Accounted boot := ⟨fun _ ↦ Nat.le_refl _, by rintro j ⟨⟩⟩

/-- In a run whose yields are all those of timer interrupts, a process that moves from a level to
the next has received the ticks of its slice since it entered the level, slept, was promoted or was
boosted. -/
theorem demotion_used {es : List Event} {e : Event} (hrun : Runs (ChargedStep n) boot es k)
    (hstep : ChargedStep n k e k') {j : Nat}
    (hlevel : (k'.world.procs j).queueLevel = (k.world.procs j).queueLevel + 1) :
    mlfqTimeSlices (k.world.procs j).queueLevel ≤ k.used j := by
  have hacc := hrun.invariant Accounted (fun _ _ _ h hs ↦ accounted_step h hs) accounted_boot
  obtain ⟨hstep, hcharged⟩ := hstep
  obtain ⟨c, i, rfl, -, -, rfl⟩ | ⟨c, i, w, rfl, hi, hprocs, rfl⟩ | ⟨op, w, rfl, hop, -, hw, rfl⟩ :=
    step_cases hstep
  · exact absurd hlevel (Nat.ne_of_lt (Nat.lt_succ_self _))
  · dsimp only at hlevel
    rw [hprocs] at hlevel
    obtain rfl | hsame := yield_procs k.world i j
    · have hused := hacc.used j
      rw [hcharged j hi] at hused
      rw [setProc_self] at hlevel
      obtain ⟨hslice, -⟩ | ⟨hstays, -⟩ := schedOnYield_spec (k.world.procs j)
      · exact Nat.le_trans hslice hused
      · exact absurd (hstays.symm.trans hlevel) (Nat.ne_of_lt (Nat.lt_succ_self _))
    · rw [hsame] at hlevel
      exact absurd hlevel (Nat.ne_of_lt (Nat.lt_succ_self _))
  · have hle := (spares_of_step hw hop j).uncharged.level
    dsimp only at hlevel
    rw [hlevel] at hle
    exact absurd hle (Nat.not_succ_le_self _)

/-- The first process uses its slice on the top level. -/
theorem demotion_used_first : ∃ k k', Step 64 k (.yield 0) k' ∧ (k.world.procs 0).queueLevel = 0 ∧
    (k'.world.procs 0).queueLevel = 1 ∧ mlfqTimeSlices 0 ≤ k.used 0 := by
  obtain ⟨k1, h1, k2, h2, k3, h3, k4, h4, hboosts, hdue, hlevel, hlevel'⟩ :
      ∃ k1, boot.after 64 (.other (.fork 0)) = some k1 ∧
      ∃ k2, k1.after 64 (.other (.pick 0 (some 0))) = some k2 ∧
      ∃ k3, k2.after 64 (.timer 0) = some k3 ∧
      ∃ k4, k3.after 64 (.yield 0) = some k4 ∧ k1.world.boosts = false ∧
        ((k3.world.cpus 0).proc = some 0 ∧ k3.due 0 = true) ∧
        (k3.world.procs 0).queueLevel = 0 ∧ (k4.world.procs 0).queueLevel = 1 :=
    ⟨_, rfl, _, rfl, _, rfl, _, rfl, rfl, ⟨rfl, rfl⟩, rfl, rfl⟩
  have hpick : k1.Charged (.other (.pick 0 (some 0))) := by
    intro h
    rw [hboosts] at h
    cases h
  have hyield : k3.Charged (.yield 0) := by
    intro i hi
    rw [hdue.1] at hi
    cases hi
    exact hdue.2
  have hrun : Runs (ChargedStep 64) boot [.other (.fork 0), .other (.pick 0 (some 0)), .timer 0]
    k3 :=
    .cons ⟨h1, trivial⟩ (.cons ⟨h2, hpick⟩ (.single ⟨h3, trivial⟩))
  have hused := demotion_used hrun ⟨h4, hyield⟩ (hlevel'.trans (congrArg (· + 1) hlevel.symm))
  rw [hlevel] at hused
  exact ⟨k3, k4, h4, hlevel, hlevel', hused⟩

/-- Process 0 uses its slice on the top level. Then process 1 wakes up from a device twice while
process 0 runs. -/
def wokenTwice : List Event :=
  [Event.other (.fork 0), .other (.pick 0 (some 0)), .timer 0, .yield 0, .other (.fork 1)] ++
    [Event.other (.pick 1 (some 1)), .other (.sleep 1 5), .other (.pick 0 (some 0)),
      .other (.wakeup 1 5 .device), .yield 0] ++
    [Event.other (.pick 1 (some 1)), .other (.sleep 1 5), .other (.pick 0 (some 0)),
      .other (.wakeup 1 5 .device)]

/-- The yield that follows demotes process 0 from level 1, on which it received no timer
interrupt. -/
theorem preempted_demoted : ∃ k k', Runs (Step 64) boot wokenTwice k ∧ Step 64 k (.yield 0) k' ∧
    (k.world.procs 0).queueLevel = 1 ∧ (k'.world.procs 0).queueLevel = 2 ∧ k.used 0 = 0 := by
  have hstep : ∀ k e k', Clocked.after 64 k e = some k' → Step 64 k e k' := fun _ _ _ h ↦ h
  obtain ⟨k, hrun, hcheck⟩ := exists_runs hstep boot wokenTwice
    (fun k ↦ (k.world.procs 0).queueLevel = 1 ∧ k.used 0 = 0 ∧
      (k.after 64 (.yield 0)).any fun k' ↦ (k'.world.procs 0).queueLevel = 2) (by decide +kernel)
  obtain ⟨hlevel, hused, hyield⟩ := of_decide_eq_true hcheck
  obtain ⟨k', hk', hlevel'⟩ := (Option.any_eq_true _ _).mp hyield
  exact ⟨k, k', hrun, hk', hlevel, of_decide_eq_true hlevel', hused⟩

end Clocked

end Xv6K210.Sched
