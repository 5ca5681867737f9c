import Xv6K210.Base.RoundRobin
import Xv6K210.Base.Runs
import Xv6K210.Signal.Proc

/-!
# The multi-level feedback queue scheduler

Source `kernel/proc/proc.c:28–60, 250–408, 829–855` and the places that change
`p->state` (`allocproc`, `freeproc`, `fork`, `exit`, `yield`, `sleep_on`, `wakeup_reason`,
`wakeup1`, `kernel/proc/signal.c:120–136`). The queues are the levels in the process table, and each
level has its own cursor into it. `pick_next_proc_mlfq` is one step.
-/

namespace Xv6K210.Sched

open Xv6K210.Base Xv6K210.Signal Function

/-- `MLFQ_LEVELS`. -/
def MLFQ_LEVELS : Nat := 4

/-- `MLFQ_TOP_LEVEL`. -/
def MLFQ_TOP_LEVEL : Nat := 0

/-- `MLFQ_BOTTOM_LEVEL`. -/
def MLFQ_BOTTOM_LEVEL : Nat := MLFQ_LEVELS - 1

/-- `MLFQ_BOOST_INTERVAL`. -/
def MLFQ_BOOST_INTERVAL : UInt32 := 200

/-- `NCPU`. -/
def NCPU : Nat := 2

/-- `mlfq_time_slices`. -/
def mlfqTimeSlices : Nat → Nat
  | 0 => 1
  | 1 => 2
  | 2 => 4
  | _ => 8

/-- Why a sleeper is woken up. -/
inductive WakeupReason where
  | normal
  | timer
  | io
  | device
  deriving DecidableEq, Repr

/-- The fields of `struct proc` that the scheduler uses. -/
structure Proc where
  state : ProcState
  chan : Option Nat
  queueLevel : Nat
  schedTicks : Nat
  totalRunTicks : UInt32
  waitTicks : UInt32
  preemptCount : UInt32
  boostCount : UInt32
  ioWakeupCount : UInt32
  deviceWakeupCount : UInt32
  lastWakeupReason : WakeupReason

/-- The counters as `allocproc` and `freeproc` set them. -/
def Proc.fresh (state : ProcState) : Proc where
  state := state
  chan := none
  queueLevel := MLFQ_TOP_LEVEL
  schedTicks := 0
  totalRunTicks := 0
  waitTicks := 0
  preemptCount := 0
  boostCount := 0
  ioWakeupCount := 0
  deviceWakeupCount := 0
  lastWakeupReason := .normal

/-- `struct cpu`: the process that runs there, and the request to reschedule. -/
structure Cpu where
  proc : Option Nat
  needResched : Bool

/-- The process table, the processors, and the scheduler's own variables. -/
structure World where
  procs : Nat → Proc
  cpus : Nat → Cpu
  ticks : UInt32
  mlfqRrNext : Nat → Nat
  mlfqLastBoostTick : UInt32
  mlfqPreemptCount : UInt32

namespace World

/-- The record of a process is replaced. -/
def setProc (w : World) (i : Nat) (p : Proc) : World :=
  { w with procs := update w.procs i p }

/-- The record of a processor is replaced. -/
def setCpu (w : World) (c : Nat) (cpu : Cpu) : World :=
  { w with cpus := update w.cpus c cpu }

end World

/-- The fields that `mlfq_boost_if_needed` writes. -/
def Proc.boost (p : Proc) : Proc :=
  if p.state = .unused then p
  else
    { p with
      queueLevel := MLFQ_TOP_LEVEL
      schedTicks := 0
      waitTicks := 0
      boostCount := p.boostCount + 1 }

/-- `sched_on_yield`. -/
def Proc.schedOnYield (p : Proc) : Proc :=
  let q := { p with
    totalRunTicks := p.totalRunTicks + 1
    preemptCount := p.preemptCount + 1
    schedTicks := p.schedTicks + 1 }
  if mlfqTimeSlices q.queueLevel ≤ q.schedTicks then
    { q with
      queueLevel :=
        if q.queueLevel < MLFQ_BOTTOM_LEVEL then q.queueLevel + 1 else q.queueLevel
      schedTicks := 0 }
  else q

/-- The fields of the process that `mlfq_promote_on_wakeup` writes, for a device or a disk. -/
def Proc.promote (p : Proc) (reason : WakeupReason) : Proc :=
  { p with
    queueLevel := if MLFQ_TOP_LEVEL < p.queueLevel then p.queueLevel - 1 else p.queueLevel
    schedTicks := 0
    ioWakeupCount := if reason = .io then p.ioWakeupCount + 1 else p.ioWakeupCount
    deviceWakeupCount :=
      if reason = .io then p.deviceWakeupCount else p.deviceWakeupCount + 1 }

namespace World

/-- `mlfq_boost_if_needed`. -/
def boostIfNeeded (w : World) : World :=
  if w.ticks - w.mlfqLastBoostTick < MLFQ_BOOST_INTERVAL then w
  else { w with mlfqLastBoostTick := w.ticks, procs := fun j ↦ (w.procs j).boost }

/-- The process is runnable at the level. -/
def readyAt (w : World) (level j : Nat) : Bool :=
  (w.procs j).state = .runnable && (w.procs j).queueLevel = level

/-- The inner loop of `pick_next_proc_mlfq`: the table is searched from the cursor of the level. -/
def pickLevel (n : Nat) (w : World) (level : Nat) : Option Nat :=
  scan n (w.readyAt level) (w.mlfqRrNext level)

/-- The level and the process that `pick_next_proc_mlfq` finds. -/
def choose (n : Nat) (w : World) : Option (Nat × Nat) :=
  (List.range MLFQ_LEVELS).findSome? fun level ↦ (w.pickLevel n level).map fun idx ↦ (level, idx)

/-- `pick_next_proc_mlfq`. -/
def pickNextProcMlfq (n : Nat) (w : World) : Option Nat × World :=
  let w := w.boostIfNeeded
  match w.choose n with
  | none => (none, w)
  | some (level, idx) =>
    (some idx,
      { w.setProc idx { w.procs idx with waitTicks := 0 } with
        mlfqRrNext := update w.mlfqRrNext level ((idx + 1) % n) })

/-- The body of the loop of `scheduler` behind `account_runnable_wait`: `pick_next_proc` and, with
the lock of the process still held, `run_proc` and the rest of `sleep_on`. -/
def schedule (n : Nat) (w : World) (c : Nat) : Option Nat × World :=
  match w.pickNextProcMlfq n with
  | (none, w) => (none, w)
  | (some p, w) =>
    (some p, (w.setProc p { w.procs p with state := .running, chan := none }).setCpu c
      { proc := some p, needResched := false })

/-- The loop of `mlfq_promote_on_wakeup` over the processors: those that run a process of a lower
level are asked to reschedule. -/
def askResched (w : World) (level : Nat) : List Nat → World
  | [] => w
  | c :: cs =>
    match (w.cpus c).proc with
    | none => w.askResched level cs
    | some cur =>
      if (w.procs cur).state = .running ∧ level < (w.procs cur).queueLevel then
        { w.setCpu c { w.cpus c with needResched := true } with
          mlfqPreemptCount := w.mlfqPreemptCount + 1 }.askResched level cs
      else w.askResched level cs

/-- `mlfq_promote_on_wakeup`. -/
def promoteOnWakeup (w : World) (j : Nat) (reason : WakeupReason) : World :=
  if reason = .io ∨ reason = .device then
    let p := (w.procs j).promote reason
    (w.setProc j p).askResched p.queueLevel (List.range NCPU)
  else w

/-- The body of the loop of `wakeup_reason`. -/
def wakeup (w : World) (j chan : Nat) (reason : WakeupReason) : World :=
  if (w.procs j).state = .sleeping ∧ (w.procs j).chan = some chan then
    (w.setProc j { w.procs j with state := .runnable, lastWakeupReason := reason }).promoteOnWakeup
      j reason
  else w

end World

/-- What happens next. -/
inductive Op where
  /-- the clock -/
  | tick
  /-- the body of the loop of `account_runnable_wait` -/
  | account (j : Nat)
  /-- a processor without a process picks `r` and runs it -/
  | pick (c : Nat) (r : Option Nat)
  /-- `yield` by the process of the processor -/
  | yield (c : Nat)
  /-- `sleep_on` -/
  | sleep (c chan : Nat)
  /-- the last lines of `exit` -/
  | exit (c : Nat)
  /-- the body of the loop of `wakeup_reason` -/
  | wakeup (j chan : Nat) (reason : WakeupReason)
  /-- `wakeup1`, or a signal that ends an interruptible sleep -/
  | rouse (j : Nat)
  /-- `userinit`, or `fork` with a new process in slot `j` -/
  | fork (j : Nat)
  /-- `freeproc` -/
  | free (j : Nat)
  deriving DecidableEq, Repr

namespace World

/-- The process of a processor stops running there, with a new record. -/
def leave (w : World) (c : Nat) (f : Proc → Proc) : Option World :=
  match (w.cpus c).proc with
  | none => none
  | some i =>
    some ((w.setProc i (f (w.procs i))).setCpu c { w.cpus c with proc := none })

/-- The state after a step, where the step can happen, with `n` slots in the process table. -/
def after (n : Nat) (w : World) : Op → Option World
  | .tick => some { w with ticks := w.ticks + 1 }
  | .account j =>
    if (w.procs j).state = .runnable then
      some (w.setProc j { w.procs j with waitTicks := (w.procs j).waitTicks + 1 })
    else some w
  | .pick c r =>
    if (w.cpus c).proc = none ∧ (w.schedule n c).1 = r then some (w.schedule n c).2 else none
  | .yield c => w.leave c fun p ↦ { p.schedOnYield with state := .runnable }
  | .sleep c chan =>
    w.leave c fun p ↦ { p with chan := some chan, state := .sleeping, schedTicks := 0 }
  | .exit c => w.leave c fun p ↦ { p with state := .zombie }
  | .wakeup j chan reason => some (w.wakeup j chan reason)
  | .rouse j =>
    if (w.procs j).state = .sleeping then
      some (w.setProc j { w.procs j with state := .runnable })
    else none
  | .fork j =>
    if (w.procs j).state = .unused then some (w.setProc j (.fresh .runnable)) else none
  | .free j =>
    if (w.procs j).state = .zombie then some (w.setProc j (.fresh .unused)) else none

/-- One step. -/
def Step (n : Nat) (w : World) (op : Op) (w' : World) : Prop := w.after n op = some w'

/-- After `procinit`. -/
def boot : World where
  procs := fun _ ↦ .fresh .unused
  cpus := fun _ ↦ { proc := none, needResched := false }
  ticks := 0
  mlfqRrNext := fun _ ↦ 0
  mlfqLastBoostTick := 0
  mlfqPreemptCount := 0

end World

/-! ### Levels -/

private theorem boost_queueLevel {p : Proc} (h : p.queueLevel ≤ MLFQ_BOTTOM_LEVEL) :
    p.boost.queueLevel ≤ MLFQ_BOTTOM_LEVEL := by
  rw [Proc.boost]
  split
  next => exact h
  next => exact Nat.zero_le _

private theorem schedOnYield_queueLevel {p : Proc} (h : p.queueLevel ≤ MLFQ_BOTTOM_LEVEL) :
    p.schedOnYield.queueLevel ≤ MLFQ_BOTTOM_LEVEL := by
  rw [Proc.schedOnYield]
  dsimp only
  split
  next =>
    dsimp only
    split
    next hlt => exact hlt
    next => exact h
  next => exact h

private theorem promote_queueLevel {p : Proc} (reason : WakeupReason)
    (h : p.queueLevel ≤ MLFQ_BOTTOM_LEVEL) :
    (p.promote reason).queueLevel ≤ MLFQ_BOTTOM_LEVEL := by
  rw [Proc.promote]
  dsimp only
  split
  next => exact Nat.le_trans (Nat.sub_le _ _) h
  next => exact h

namespace World

/-- Every process is on one of the levels. -/
def Leveled (w : World) : Prop := ∀ j, (w.procs j).queueLevel ≤ MLFQ_BOTTOM_LEVEL

/-- A process with a level in range is stored. -/
theorem Leveled.setProc {w : World} (h : w.Leveled) (i : Nat) {p : Proc}
    (hp : p.queueLevel ≤ MLFQ_BOTTOM_LEVEL) : (w.setProc i p).Leveled := by
  intro j
  rw [World.setProc]
  dsimp only
  by_cases hj : j = i
  · subst hj
    rw [update_self]
    exact hp
  · rw [update_of_ne hj]
    exact h j

/-- A boost keeps the levels in range. -/
theorem Leveled.boostIfNeeded {w : World} (h : w.Leveled) : w.boostIfNeeded.Leveled := by
  rw [World.boostIfNeeded]
  split
  next => exact h
  next => exact fun j ↦ boost_queueLevel (h j)

/-- Requests to reschedule touch neither the processes nor the cursors. -/
theorem askResched_frame (w : World) (level : Nat) (cs : List Nat) :
    (w.askResched level cs).procs = w.procs ∧
      (w.askResched level cs).mlfqRrNext = w.mlfqRrNext := by
  induction cs generalizing w with
  | nil => exact ⟨rfl, rfl⟩
  | cons c cs ih =>
    rw [askResched]
    split
    next => exact ih w
    next =>
      split
      next => exact ih _
      next => exact ih w

/-- A wakeup changes one process, and no cursor. -/
theorem wakeup_spec {w : World} (j chan : Nat) (reason : WakeupReason) :
    (w.wakeup j chan reason).mlfqRrNext = w.mlfqRrNext ∧
      (w.Leveled → (w.wakeup j chan reason).Leveled) := by
  rw [wakeup]
  split
  next =>
    have hwoken : ∀ p : Proc, p.queueLevel = (w.procs j).queueLevel →
        ((w.setProc j p).promoteOnWakeup j reason).mlfqRrNext = w.mlfqRrNext ∧
          (w.Leveled → ((w.setProc j p).promoteOnWakeup j reason).Leveled) := by
      intro p hp
      rw [promoteOnWakeup]
      split
      next =>
        dsimp only
        obtain ⟨hprocs, hrr⟩ := askResched_frame
          ((w.setProc j p).setProc j (((w.setProc j p).procs j).promote reason))
          (((w.setProc j p).procs j).promote reason).queueLevel (List.range NCPU)
        refine ⟨hrr, fun h ↦ ?_⟩
        have hset : (w.setProc j p).Leveled := h.setProc j (by rw [hp]; exact h j)
        have hpromoted := hset.setProc j (promote_queueLevel reason (hset j))
        rw [Leveled, hprocs]
        exact hpromoted
      next => exact ⟨rfl, fun h ↦ h.setProc j (by rw [hp]; exact h j)⟩
    exact hwoken _ rfl
  next => exact ⟨rfl, id⟩

/-! ### The choice -/

/-- The level that is found is the first at which the search of the table finds a process. -/
theorem choose_eq_some {n : Nat} {w : World} {level idx : Nat}
    (h : w.choose n = some (level, idx)) :
    w.pickLevel n level = some idx ∧ ∀ l, l < level → w.pickLevel n l = none := by
  rw [choose, List.findSome?_eq_some_iff] at h
  obtain ⟨l1, a, l2, hrange, ha, hbefore⟩ := h
  rw [Option.map_eq_some_iff] at ha
  obtain ⟨i, hi, hpair⟩ := ha
  obtain ⟨rfl, rfl⟩ := Prod.mk.inj hpair
  refine ⟨hi, fun l hl ↦ ?_⟩
  -- the levels before the one that is found are the smaller ones
  have hpos : a = l1.length := by
    have hget : (List.range MLFQ_LEVELS)[l1.length]? = some a := by
      rw [hrange]
      simp
    rw [List.getElem?_range] at hget
    · exact (Option.some.inj hget).symm
    · have hlen := congrArg List.length hrange
      rw [List.length_range, List.length_append, List.length_cons] at hlen
      omega
  have hmem : l ∈ l1 := by
    have hget : (List.range MLFQ_LEVELS)[l]? = some l := by
      rw [List.getElem?_range]
      have hlen := congrArg List.length hrange
      rw [List.length_range, List.length_append, List.length_cons] at hlen
      omega
    rw [hrange, List.getElem?_append_left (by omega)] at hget
    exact List.mem_of_getElem? hget
  have hnone := hbefore l hmem
  rwa [Option.map_eq_none_iff] at hnone

/-- The process that is found is runnable, at the level. -/
theorem ready_of_choose {n : Nat} {w : World} {level idx : Nat}
    (h : w.choose n = some (level, idx)) :
    idx < n ∧ (w.procs idx).state = .runnable ∧ (w.procs idx).queueLevel = level := by
  obtain ⟨hlt, hready, -⟩ := scan_eq_some (choose_eq_some h).1
  simp only [readyAt, Bool.and_eq_true, decide_eq_true_iff] at hready
  exact ⟨hlt, hready⟩

/-- Nothing is found only when no level has a ready process. -/
theorem choose_eq_none {n : Nat} {w : World} (h : w.choose n = none) {l : Nat}
    (hl : l ≤ MLFQ_BOTTOM_LEVEL) : w.pickLevel n l = none := by
  rw [choose, List.findSome?_eq_none_iff] at h
  have hnone := h l (List.mem_range.mpr (Nat.lt_succ_of_le hl))
  rwa [Option.map_eq_none_iff] at hnone

/-- The level has no ready process when the search of the table finds none. -/
theorem not_ready_of_none {n : Nat} {w : World} {l j : Nat} (h : w.pickLevel n l = none)
    (hj : j < n) (hrun : (w.procs j).state = .runnable) : (w.procs j).queueLevel ≠ l := by
  intro heq
  have hno := scan_eq_none h j hj
  simp [readyAt, hrun, heq] at hno

/-- The outcome of `pick_next_proc` and `run_proc`. -/
theorem schedule_spec (n : Nat) (w : World) (c : Nat) :
    ((w.schedule n c).1 = none ∧ w.boostIfNeeded.choose n = none ∧
        (w.schedule n c).2 = w.boostIfNeeded) ∨
      ∃ level idx, (w.schedule n c).1 = some idx ∧
        w.boostIfNeeded.choose n = some (level, idx) ∧
        (w.schedule n c).2.mlfqRrNext =
          update w.boostIfNeeded.mlfqRrNext level ((idx + 1) % n) ∧
        (w.boostIfNeeded.Leveled → (w.schedule n c).2.Leveled) := by
  rw [schedule, pickNextProcMlfq]
  dsimp only
  cases hchoose : w.boostIfNeeded.choose n with
  | none => exact .inl ⟨rfl, rfl, rfl⟩
  | some found =>
    obtain ⟨level, idx⟩ := found
    refine .inr ⟨level, idx, rfl, rfl, rfl, fun h ↦ ?_⟩
    have hwait := h.setProc idx (p := { w.boostIfNeeded.procs idx with waitTicks := 0 }) (h idx)
    dsimp only
    exact hwait.setProc idx (hwait idx)

/-! ### Runs -/

/-- A process that stops running keeps the cursors, and a level in range. -/
theorem leave_spec {w w' : World} {c : Nat} {f : Proc → Proc} (h : w.leave c f = some w')
    (hf : ∀ p, p.queueLevel ≤ MLFQ_BOTTOM_LEVEL → (f p).queueLevel ≤ MLFQ_BOTTOM_LEVEL) :
    w'.mlfqRrNext = w.mlfqRrNext ∧ (w.Leveled → w'.Leveled) := by
  rw [leave] at h
  split at h
  next => cases h
  next i hi =>
    cases h
    exact ⟨rfl, fun hw ↦ hw.setProc i (hf _ (hw i))⟩

/-- Every step keeps the levels in range, and only a pick moves a cursor. -/
theorem Step.spec {n : Nat} {w w' : World} {op : Op} (h : Step n w op w') :
    (w.Leveled → w'.Leveled) ∧ ((∀ c r, op ≠ .pick c r) → w'.mlfqRrNext = w.mlfqRrNext) := by
  cases op with
  | tick =>
    cases h
    exact ⟨id, fun _ ↦ rfl⟩
  | account j =>
    simp only [Step, after] at h
    split at h
    next =>
      cases h
      exact ⟨fun hw ↦ hw.setProc j (hw j), fun _ ↦ rfl⟩
    next =>
      cases h
      exact ⟨id, fun _ ↦ rfl⟩
  | pick c r =>
    simp only [Step, after, Option.ite_none_right_eq_some] at h
    obtain ⟨-, heq⟩ := h
    cases heq
    refine ⟨fun hw ↦ ?_, fun hno ↦ absurd rfl (hno c r)⟩
    obtain ⟨-, -, hsame⟩ | ⟨level, idx, -, -, -, hlev⟩ := schedule_spec n w c
    · rw [hsame]
      exact hw.boostIfNeeded
    · exact hlev hw.boostIfNeeded
  | yield c =>
    simp only [Step, after] at h
    have hspec := leave_spec h fun p hp ↦ schedOnYield_queueLevel hp
    exact ⟨hspec.2, fun _ ↦ hspec.1⟩
  | sleep c chan =>
    simp only [Step, after] at h
    have hspec := leave_spec h fun p hp ↦ hp
    exact ⟨hspec.2, fun _ ↦ hspec.1⟩
  | exit c =>
    simp only [Step, after] at h
    have hspec := leave_spec h fun p hp ↦ hp
    exact ⟨hspec.2, fun _ ↦ hspec.1⟩
  | wakeup j chan reason =>
    cases h
    have hspec := wakeup_spec (w := w) j chan reason
    exact ⟨hspec.2, fun _ ↦ hspec.1⟩
  | rouse j =>
    simp only [Step, after, Option.ite_none_right_eq_some] at h
    obtain ⟨-, heq⟩ := h
    cases heq
    exact ⟨fun hw ↦ hw.setProc j (hw j), fun _ ↦ rfl⟩
  | fork j =>
    simp only [Step, after, Option.ite_none_right_eq_some] at h
    obtain ⟨-, heq⟩ := h
    cases heq
    exact ⟨fun hw ↦ hw.setProc j (Nat.zero_le _), fun _ ↦ rfl⟩
  | free j =>
    simp only [Step, after, Option.ite_none_right_eq_some] at h
    obtain ⟨-, heq⟩ := h
    cases heq
    exact ⟨fun hw ↦ hw.setProc j (Nat.zero_le _), fun _ ↦ rfl⟩

/-- The levels are in range after every run. -/
theorem runs_leveled {n : Nat} {ops : List Op} {w : World} (h : Runs (Step n) boot ops w) :
    w.Leveled :=
  h.invariant Leveled (fun _ _ _ hw hs ↦ hs.spec.1 hw) fun _ ↦ Nat.zero_le _

/-- A boost changes no state. -/
theorem boostIfNeeded_state (w : World) (j : Nat) :
    (w.boostIfNeeded.procs j).state = (w.procs j).state := by
  rw [boostIfNeeded]
  split
  next => rfl
  next =>
    dsimp only
    rw [Proc.boost]
    split <;> rfl

/-- A boost moves no cursor. -/
theorem boostIfNeeded_mlfqRrNext (w : World) : w.boostIfNeeded.mlfqRrNext = w.mlfqRrNext := by
  rw [boostIfNeeded]
  split <;> rfl

/-- A pick finds no process, or the first one on the first level that has any. -/
theorem Step.pick_spec {n : Nat} {w w' : World} {c : Nat} {r : Option Nat}
    (h : Step n w (.pick c r) w') :
    (r = none ∧ w.boostIfNeeded.choose n = none ∧ w'.mlfqRrNext = w.mlfqRrNext) ∨
      ∃ level idx, r = some idx ∧ w.boostIfNeeded.choose n = some (level, idx) ∧
        w'.mlfqRrNext = update w.mlfqRrNext level ((idx + 1) % n) := by
  simp only [Step, after, Option.ite_none_right_eq_some] at h
  obtain ⟨⟨-, hr⟩, heq⟩ := h
  cases heq
  obtain ⟨hnone, hchoose, hsame⟩ | ⟨level, idx, hsome, hchoose, hrr, -⟩ := schedule_spec n w c
  · refine .inl ⟨hr.symm.trans hnone, hchoose, ?_⟩
    rw [hsame, boostIfNeeded_mlfqRrNext]
  · refine .inr ⟨level, idx, hr.symm.trans hsome, hchoose, ?_⟩
    rw [hrr, boostIfNeeded_mlfqRrNext]

/-- At a pick, process `q` is runnable at the level. The levels are those that the pick sees, after
its boost. -/
def Offers (w : World) (q level : Nat) (op : Op) : Prop :=
  ∀ c r, op = .pick c r → w.boostIfNeeded.readyAt level q

/-- A pick at the level that passes over the offered process `q` does not find `p`, when `q` is
nearer to the cursor, and `q` stays nearer. -/
theorem nearer_of_choose {n level p q idx : Nat} {w : World} (hq : q < n) (hp : p < n)
    (hready : w.boostIfNeeded.readyAt level q) (hnear : Nearer n (w.mlfqRrNext level) q p)
    (hchoose : w.boostIfNeeded.choose n = some (level, idx)) (hne : idx ≠ q) :
    idx ≠ p ∧ Nearer n ((idx + 1) % n) q p := by
  have hscan := (choose_eq_some hchoose).1
  rw [pickLevel, boostIfNeeded_mlfqRrNext] at hscan
  exact hnear.scan hq hp hready hscan hne

/-- While `q` is offered and not picked, it stays nearer to the cursor than `p`. -/
theorem Step.nearer {n level p q : Nat} {w w' : World} {op : Op} (h : Step n w op w')
    (hq : q < n) (hp : p < n) (hoffer : w.Offers q level op) (hnot : ∀ c, op ≠ .pick c (some q))
    (hnear : Nearer n (w.mlfqRrNext level) q p) : Nearer n (w'.mlfqRrNext level) q p := by
  by_cases hpick : ∃ c r, op = .pick c r
  · obtain ⟨c, r, rfl⟩ := hpick
    obtain ⟨-, -, hrr⟩ | ⟨l, idx, rfl, hchoose, hrr⟩ := h.pick_spec
    · rw [hrr]
      exact hnear
    · rw [hrr]
      by_cases hl : l = level
      · subst hl
        rw [update_self]
        have hne : idx ≠ q := by
          rintro rfl
          exact hnot c rfl
        exact (nearer_of_choose hq hp (hoffer c _ rfl) hnear hchoose hne).2
      · rw [update_of_ne (fun heq ↦ hl heq.symm)]
        exact hnear
  · have hsame := h.spec.2 fun c r heq ↦ hpick ⟨c, r, heq⟩
    rw [hsame]
    exact hnear

/-- After every run, a pick returns a runnable process of a level that no runnable process is above,
or none when no process is runnable. Two picks of the same process `p` at a level have a pick of `q`
between them, if `q` is another process that is runnable at the level at every pick after the first
one, up to the second. -/
theorem pick_minimal_and_fair {n : Nat} {ops : List Op} {w w1 : World}
    (h : Runs (Step n) boot ops w) {c : Nat} {r : Option Nat} (hpick : Step n w (.pick c r) w1) :
    (match r with
      | some p => p < n ∧ (w.boostIfNeeded.procs p).state = .runnable ∧
          ∀ j, j < n → (w.boostIfNeeded.procs j).state = .runnable →
            (w.boostIfNeeded.procs p).queueLevel ≤ (w.boostIfNeeded.procs j).queueLevel
      | none => ∀ j, j < n → (w.procs j).state ≠ .runnable) ∧
    ∀ (p q level c' : Nat) (ops' : List Op) (w2 w3 : World), r = some p → q < n → q ≠ p →
      (w.boostIfNeeded.procs p).queueLevel = level →
      Runs (fun w op w' ↦ w.Offers q level op ∧ Step n w op w') w1 ops' w2 →
      w2.Offers q level (.pick c' (some p)) → Step n w2 (.pick c' (some p)) w3 →
      (w2.boostIfNeeded.procs p).queueLevel = level →
      ∃ c'', .pick c'' (some q) ∈ ops' := by
  have hleveled : w.boostIfNeeded.Leveled := (runs_leveled h).boostIfNeeded
  constructor
  · obtain ⟨rfl, hnone, -⟩ | ⟨level, idx, rfl, hchoose, -⟩ := hpick.pick_spec
    · intro j hj hrun
      rw [← boostIfNeeded_state] at hrun
      exact not_ready_of_none (choose_eq_none hnone (hleveled j)) hj hrun rfl
    · obtain ⟨hlt, hrunp, hlevel⟩ := ready_of_choose hchoose
      refine ⟨hlt, hrunp, fun j hj hrun ↦ ?_⟩
      rw [hlevel]
      by_contra habove
      have hbefore := (choose_eq_some hchoose).2 _ (Nat.lt_of_not_le habove)
      exact not_ready_of_none hbefore hj hrun rfl
  · intro p q level c' ops' w2 w3 hr hq hne hlevel hrun hoffer hpick' hlevel'
    subst hr
    by_contra hnot
    rw [not_exists] at hnot
    -- the first pick leaves the cursor behind `p`
    obtain ⟨hno, -, -⟩ | ⟨l, idx, hidx, hchoose, hrr⟩ := hpick.pick_spec
    · cases hno
    obtain rfl := Option.some.inj hidx
    obtain ⟨hp, -, hl⟩ := ready_of_choose hchoose
    rw [hlevel] at hl
    subst hl
    have hnear : Nearer n (w1.mlfqRrNext level) q p := by
      rw [hrr, update_self]
      exact nearer_of_found hq hp hne
    have hnear' : Nearer n (w2.mlfqRrNext level) q p := by
      have hother : ∀ op ∈ ops', ∀ c, op ≠ .pick c (some q) := by
        rintro op hop c rfl
        exact hnot c hop
      exact hrun.invariant_of (fun w ↦ Nearer n (w.mlfqRrNext level) q p)
        (fun _ _ _ hnotq hu hs ↦ hs.2.nearer hq hp hs.1 hnotq hu) hother hnear
    -- so the second one would have found `q` first
    obtain ⟨hno, -, -⟩ | ⟨l, idx, hidx, hchoose', -⟩ := hpick'.pick_spec
    · cases hno
    obtain rfl := Option.some.inj hidx
    obtain ⟨-, -, hl⟩ := ready_of_choose hchoose'
    rw [hlevel'] at hl
    subst hl
    exact (nearer_of_choose hq hp (hoffer _ _ rfl) hnear' hchoose' (fun heq ↦ hne heq.symm)).1 rfl

/-- Whether a process is offered at a step. -/
instance decidableOffers (w : World) (q level : Nat) (op : Op) : Decidable (w.Offers q level op) :=
  match op with
  | .pick _ _ => decidable_of_iff (w.boostIfNeeded.readyAt level q = true)
      ⟨fun h _ _ _ ↦ h, fun h ↦ h _ _ rfl⟩
  | .tick | .account _ | .yield _ | .sleep _ _ | .exit _ | .wakeup _ _ _ | .rouse _ | .fork _
  | .free _ => .isTrue nofun

/-- The process 0 sleeps and is woken up, and the process 1 is picked and does the same. -/
def between : List Op := [.sleep 0 5, .rouse 0, .pick 0 (some 1), .sleep 0 6, .rouse 1]

/-- Two processes, and two picks of the first one. -/
theorem pick_minimal_and_fair_small : ∃ w w1 w2 w3, Runs (Step 64) boot [.fork 0, .fork 1] w ∧
    Step 64 w (.pick 0 (some 0)) w1 ∧
    Runs (fun w op w' ↦ w.Offers 1 0 op ∧ Step 64 w op w') w1 between w2 ∧
    Step 64 w2 (.pick 0 (some 0)) w3 ∧ (w.boostIfNeeded.procs 0).state = .runnable ∧
    ∃ c, .pick c (some 1) ∈ between := by
  obtain ⟨w, hw, hnext⟩ :=
    exists_runs (f := World.after 64) (fun _ _ _ h ↦ h) boot [.fork 0, .fork 1]
    (fun w ↦ (w.boostIfNeeded.procs 0).queueLevel = 0 ∧
      (w.after 64 (.pick 0 (some 0))).any fun w1 ↦
        (Base.after (fun w op ↦ if w.Offers 1 0 op then w.after 64 op else none) w1 between).any
          fun w2 ↦ w2.Offers 1 0 (.pick 0 (some 0)) ∧
            (w2.after 64 (.pick 0 (some 0))).isSome ∧
            (w2.boostIfNeeded.procs 0).queueLevel = 0)
    (by decide +kernel)
  obtain ⟨hlevel, hnext⟩ := of_decide_eq_true hnext
  obtain ⟨w1, hw1, hrest⟩ := (Option.any_eq_true _ _).mp hnext
  obtain ⟨w2, hbetween, hlast⟩ := exists_runs
    (f := fun w op ↦ if w.Offers 1 0 op then w.after 64 op else none)
    (fun w op w' h ↦ (Option.ite_none_right_eq_some.mp h :
      w.Offers 1 0 op ∧ w.after 64 op = some w')) w1 between _ hrest
  obtain ⟨hoffer, hagain, hlevel'⟩ := of_decide_eq_true hlast
  obtain ⟨w3, hw3⟩ := Option.isSome_iff_exists.mp hagain
  obtain ⟨hminimal, hfair⟩ := pick_minimal_and_fair hw hw1
  exact ⟨w, w1, w2, w3, hw, hw1, hbetween, hw3, hminimal.2.1,
    hfair 0 1 0 0 between w2 w3 rfl (by decide) (by decide) hlevel hbetween hoffer hw3 hlevel'⟩

end World

end Xv6K210.Sched
