import Mathlib.Algebra.Order.Ring.Nat
import Xv6K210.Spi.Controller

/-!
# What a transfer returns, and its flow control

The handler reports events with `xfer_err` and `xfer_done`, and a transfer returns the value of what
was reported during it, if it began with both flags clear. The transmit and the receive FIFO
together hold the frames that are written and not yet read.
-/

namespace Xv6K210.Spi

open Base

/-! ## The value of the reported events -/

/-- `xfer_err` after an event. -/
def Event.err (err : Int) : Event → Int
  | rxo => -EOVERFLOW
  | txo => -EINVAL
  | complete => err

/-- `xfer_err` after some events. -/
def errOf (events : List Event) : Int := events.foldl Event.err 0

/-- What a transfer returns by what happened during it. -/
def verdict (refused : Bool) (events : List Event) : Int :=
  if refused then -EINVAL
  else if events.isEmpty then -ETIMEDOUT
  else errOf events

private theorem errOf_append (events : List Event) (e : Event) :
    errOf (events ++ [e]) = e.err (errOf events) := by
  rw [errOf, List.foldl_append]
  rfl

/-- No overflow is no error. -/
theorem errOf_eq_zero {events : List Event} (hrxo : Event.rxo ∉ events)
    (htxo : Event.txo ∉ events) : errOf events = 0 := by
  unfold errOf
  generalize (0 : Int) = err
  induction events generalizing err with
  | nil => rfl
  | cons e es ih =>
    rw [List.mem_cons, not_or] at hrxo htxo
    cases e with
    | rxo => exact absurd rfl hrxo.1
    | txo => exact absurd rfl htxo.1
    | complete => exact ih hrxo.2 htxo.2 err

/-- Events without an error are those of a transfer that was completed. -/
theorem complete_of_errOf {events : List Event} (hne : events ≠ []) (h : errOf events = 0) :
    Event.complete ∈ events := by
  obtain ⟨es, e, rfl⟩ := (List.eq_nil_or_concat events).resolve_left hne
  rw [List.concat_eq_append] at h ⊢
  rw [errOf_append] at h
  cases e with
  | rxo =>
    have hne : -EOVERFLOW ≠ 0 := by decide
    exact absurd h hne
  | txo =>
    have hne : -EINVAL ≠ 0 := by decide
    exact absurd h hne
  | complete => exact List.mem_append_right es List.mem_cons_self

/-! ## Transfers that begin with clear flags -/

/-- The handler has not read that a FIFO overflowed. -/
def Handler.clean : Handler → Bool
  | entered isr => !isr.rxo && !isr.txo
  | _ => true

/-- The steps in the course of a transfer. -/
def Act.within : Act → Bool
  | reset => false
  | start _ => false
  | _ => true

/-- Nothing is left of the transfers before. -/
def World.quiet (w : World) : Bool := !w.xferDone && w.xferErr = 0 && w.handler.clean

/-- The value depends on the transfer alone, and it is 0 if it was completed and nothing
overflowed. -/
structure Return.Independent (r : Return) : Prop where
  value_eq : r.value = verdict r.refused r.events
  completed : r.refused = false → r.lost = 0 → Event.complete ∈ r.events ∨ r.late = false →
    r.value = 0

/-- The flags are those of the current transfer. -/
structure Own (w : World) : Prop where
  latched : w.rxo = true → w.lost ≠ 0
  stale : ∀ isr, w.handler = .entered isr → isr.rxo = true → w.lost ≠ 0
  rxo : Event.rxo ∈ w.events → w.lost ≠ 0
  txo : Event.txo ∉ w.events
  done : w.xferDone = !w.events.isEmpty
  err : w.xferErr = errOf w.events

/-- What holds between the steps. -/
structure Sound (w : World) : Prop where
  txo : w.txo = false
  entered : ∀ isr, w.handler = .entered isr → isr.txo = false
  own : w.thread ≠ .idle → Own w
  last : ∀ r, w.last = some r → r.Independent

namespace World

private theorem drainOr_handler (w : World) (isr isr' : Isr) :
    (w.drainOr isr).handler ≠ .entered isr' := by
  rw [drainOr]
  split
  all_goals rintro ⟨⟩

/-- The start of a transfer in a quiet state. -/
theorem begin_sound {w : World} (hquiet : w.quiet = true) (len : Nat) : Sound (w.begin len) := by
  simp only [quiet, Bool.and_eq_true, Bool.not_eq_true', decide_eq_true_eq] at hquiet
  obtain ⟨⟨hdone, herr⟩, hclean⟩ := hquiet
  have hisr : ∀ isr, w.handler = .entered isr → isr.rxo = false ∧ isr.txo = false := by
    intro isr hisr
    rw [hisr] at hclean
    simpa [Handler.clean] using hclean
  refine ⟨rfl, fun isr h ↦ (hisr isr h).2, fun _ ↦ ?_, by rintro r ⟨⟩⟩
  refine ⟨by rintro ⟨⟩, ?_, by rintro ⟨⟩, by rintro ⟨⟩, hdone, herr⟩
  intro isr h hrxo
  rw [(hisr isr h).1] at hrxo
  cases hrxo

/-- A transfer that waits returns what was reported. -/
theorem finish_independent {w : World} (hown : Own w) (hdone : w.xferDone = true) (late : Bool) :
    Return.Independent
      { refused := false, events := w.events, lost := w.lost, late, value := w.xferErr } := by
  have hne : w.events.isEmpty = false := by
    rw [hown.done] at hdone
    simpa using hdone
  refine ⟨?_, fun _ hlost _ ↦ ?_⟩
  · rw [hown.err, verdict, hne]
    rfl
  · rw [hown.err]
    exact errOf_eq_zero (fun hrxo ↦ hown.rxo hrxo hlost) hown.txo

/-- A transfer that is late returns so. -/
theorem late_independent {w : World} (hown : Own w) (hdone : w.xferDone = false) :
    Return.Independent
      { refused := false, events := w.events, lost := w.lost, late := true
        value := -ETIMEDOUT } := by
  have hnil : w.events = [] := by
    rw [hown.done] at hdone
    simpa using hdone
  rw [hnil]
  refine ⟨rfl, fun _ _ h ↦ ?_⟩
  rcases h with h | h
  · cases h
  · cases h

/-- The handler reports an event. -/
theorem own_report {w w' : World} (hown : Own w) (e : Event) (he : e ≠ .txo)
    (hrxo : w'.rxo = true → w.rxo = true) (hlost : w'.lost = w.lost) (hlate : e = .rxo → w.lost ≠ 0)
    (hhandler : w'.handler = .out) (hevents : w'.events = w.events ++ [e])
    (hdone : w'.xferDone = true) (herr : w'.xferErr = e.err w.xferErr) : Own w' := by
  refine ⟨fun h ↦ ?_, ?_, ?_, ?_, ?_, ?_⟩
  · rw [hlost]
    exact hown.latched (hrxo h)
  · intro isr h
    rw [hhandler] at h
    cases h
  · rw [hevents, hlost, List.mem_append, List.mem_singleton]
    rintro (h | h)
    · exact hown.rxo h
    · exact hlate h.symm
  · rw [hevents, List.mem_append, List.mem_singleton, not_or]
    exact ⟨hown.txo, he.symm⟩
  · rw [hdone, hevents]
    simp
  · rw [herr, hevents, errOf_append, hown.err]

/-- What a step preserves, if a transfer begins in a quiet state. -/
theorem sound_step {w w' : World} {a : Act} (h : Sound w)
    (hstart : ∀ len, a = .start len → len % w.width.bytes = 0 → w.quiet = true)
    (hstep : Step w a w') : Sound w' := by
  cases did_of_step hstep with
  | reset hidle => exact ⟨h.txo, h.entered, fun ht ↦ absurd hidle ht, h.last⟩
  | refuse len hidle hlen =>
    refine ⟨h.txo, h.entered, fun ht ↦ absurd hidle ht, ?_⟩
    rintro r ⟨⟩
    exact ⟨rfl, by rintro ⟨⟩⟩
  | start len hidle hlen => exact begin_sound (hstart len rfl hlen) len
  | push | pop | shift =>
    refine ⟨h.txo, h.entered, fun ht ↦ ?_, h.last⟩
    have hown := h.own ht
    exact ⟨hown.latched, hown.stale, hown.rxo, hown.txo, hown.done, hown.err⟩
  | prefilled hthread =>
    refine ⟨h.txo, h.entered, fun _ ↦ ?_, h.last⟩
    have hown := h.own (by rw [hthread]; decide)
    exact ⟨hown.latched, hown.stale, hown.rxo, hown.txo, hown.done, hown.err⟩
  | filled | drainLock =>
    refine ⟨h.txo, fun isr' h' ↦ absurd h' (drainOr_handler _ _ _), fun ht ↦ ?_, h.last⟩
    have hown := h.own ht
    exact ⟨hown.latched, fun isr' h' ↦ absurd h' (drainOr_handler _ _ _), hown.rxo, hown.txo,
      hown.done, hown.err⟩
  | enter =>
    refine ⟨h.txo, ?_, fun ht ↦ ?_, h.last⟩
    · rintro isr ⟨⟩
      simp [isr, h.txo]
    · have hown := h.own ht
      refine ⟨hown.latched, ?_, hown.rxo, hown.txo, hown.done, hown.err⟩
      rintro isr ⟨⟩ hrxo
      simp only [isr, Bool.and_eq_true] at hrxo
      exact hown.latched hrxo.1
  | rxoLock isr hhandler hrxo =>
    refine ⟨h.txo, by rintro isr' ⟨⟩, fun ht ↦ ?_, h.last⟩
    have hown := h.own ht
    exact own_report hown .rxo (by decide) (by rintro ⟨⟩) rfl (fun _ ↦ hown.stale isr hhandler hrxo)
      rfl rfl rfl rfl
  | txoLock isr hhandler htxo =>
    rw [h.entered isr hhandler] at htxo
    cases htxo
  | fillLock | drained =>
    refine ⟨h.txo, by rintro isr' ⟨⟩, fun ht ↦ ?_, h.last⟩
    have hown := h.own ht
    exact ⟨hown.latched, by rintro isr' ⟨⟩, hown.rxo, hown.txo, hown.done, hown.err⟩
  | complete =>
    refine ⟨h.txo, by rintro isr' ⟨⟩, fun ht ↦ ?_, h.last⟩
    exact own_report (h.own ht) .complete (by decide) id rfl (by rintro ⟨⟩) rfl rfl rfl rfl
  | done late hthread hdone =>
    refine ⟨h.txo, h.entered, fun ht ↦ absurd rfl ht, ?_⟩
    rintro r ⟨⟩
    exact finish_independent (h.own (by rw [hthread]; decide)) hdone late
  | late hthread hdone =>
    refine ⟨h.txo, h.entered, fun ht ↦ absurd rfl ht, ?_⟩
    rintro r ⟨⟩
    exact late_independent (h.own (by rw [hthread]; decide)) hdone
  | sleep => exact h
  | overflow =>
    refine ⟨h.txo, h.entered, fun ht ↦ ?_, h.last⟩
    have hown := h.own ht
    exact ⟨fun _ ↦ Nat.succ_ne_zero _, fun _ _ _ ↦ Nat.succ_ne_zero _, fun _ ↦ Nat.succ_ne_zero _,
      hown.txo, hown.done, hown.err⟩

/-- A step, where a transfer begins in a quiet state. -/
def QuietStep (w : World) (a : Act) (w' : World) : Prop :=
  Step w a w' ∧ ∀ len, a = .start len → len % w.width.bytes = 0 → w.quiet = true

/-- The controller is sound at boot. -/
theorem sound_boot (width : SpiTransferWidth) : Sound (boot width) :=
  ⟨rfl, by rintro isr ⟨⟩, fun h ↦ absurd rfl h, by rintro r ⟨⟩⟩

/-- What every transfer returns depends on the transfer alone, in a run in which both flags are
clear when a transfer begins and no handler has read an overflow before. -/
theorem returns_independent {width : SpiTransferWidth} {as : List Act} {w : World}
    (hrun : Runs QuietStep (boot width) as w) {r : Return} (hlast : w.last = some r) :
    r.Independent := by
  have hsound := hrun.invariant Sound (fun _ _ _ h hstep ↦ sound_step h hstep.2 hstep.1)
    (sound_boot width)
  exact hsound.last r hlast

/-- A transfer of one frame. -/
def oneFrame : List Act :=
  [.start 1, .push, .fillDone, .shift, .enter, .lock, .fillDone, .pop, .drainDone, .check false]

/-- The step, if it is one where a transfer begins in a quiet state. -/
def quietAfter (w : World) (a : Act) : Option World :=
  match a with
  | .start _ => if w.quiet then w.after a else none
  | _ => w.after a

private theorem quietStep_of_quietAfter {w w' : World} {a : Act} (h : quietAfter w a = some w') :
    QuietStep w a w' := by
  unfold quietAfter at h
  split at h
  next =>
    split at h
    next hquiet => exact ⟨h, fun _ _ _ ↦ hquiet⟩
    next => cases h
  next hne => exact ⟨h, fun len hlen ↦ absurd hlen (hne len)⟩

/-- What the transfer of one frame returns when it is completed. -/
def oneReturn (value : Int) : Return where
  refused := false
  events := [.complete]
  lost := 0
  late := false
  value := value

/-- Two transfers with independent results. -/
theorem returns_independent_twice : ∃ w : World, w.last = some (oneReturn 0) ∧
    (oneReturn 0).Independent := by
  have hstep : ∀ w a w', quietAfter w a = some w' → QuietStep w a w' :=
    fun _ _ _ ↦ quietStep_of_quietAfter
  obtain ⟨w, hrun, hlast⟩ := exists_runs hstep (boot .char) (oneFrame ++ oneFrame)
    (fun w ↦ w.last = some (oneReturn 0)) (by decide +kernel)
  have hlast := of_decide_eq_true hlast
  exact ⟨w, hlast, returns_independent hrun hlast⟩

/-- A transfer whose receive FIFO overflows before the first interrupt. -/
def overflowed : List Act :=
  .start 33 :: (List.replicate 33 [Act.push, .shift]).flatten ++
    [Act.fillDone, .enter, .lock, .check false]

/-- The next transfer is completed, and returns the overflow. -/
theorem returns_earlier_error : ∃ as w, Runs Step (boot .char) as w ∧
    w.last = some (oneReturn (-EOVERFLOW)) ∧ ¬ (oneReturn (-EOVERFLOW)).Independent := by
  have hstep : ∀ w a w', World.after w a = some w' → Step w a w' := fun _ _ _ h ↦ h
  obtain ⟨w, hrun, hlast⟩ := exists_runs hstep (boot .char) (overflowed ++ .reset :: oneFrame)
    (fun w ↦ w.last = some (oneReturn (-EOVERFLOW))) (by decide +kernel)
  refine ⟨_, w, hrun, of_decide_eq_true hlast, fun h ↦ ?_⟩
  have hvalue := h.value_eq
  revert hvalue
  decide

/-! ## Flow control -/

private theorem bytes_pos (width : SpiTransferWidth) : 0 < width.bytes := by
  cases width
  all_goals decide

/-- A count of bytes of which whole frames are left is not smaller than a frame. -/
theorem bytes_le {count n b len : Nat} (hcount : count ≠ 0) (hlen : count + n * b = len)
    (hdvd : b ∣ len) : b ≤ count := by
  have hb : b ∣ count := (Nat.dvd_add_left (Nat.dvd_mul_left b n)).mp (hlen ▸ hdvd)
  exact Nat.le_of_dvd (Nat.pos_of_ne_zero hcount) hb

/-- After one more frame, the frames and the count still make up the length. -/
theorem count_next {count n b len : Nat} (hcount : count ≠ 0) (hlen : count + n * b = len)
    (hdvd : b ∣ len) : count - b + (n + 1) * b = len := by
  have hle := bytes_le hcount hlen hdvd
  rw [Nat.add_one_mul]
  omega

/-- Where the frames of a transfer of `len` bytes are. -/
structure Flow (len : Nat) (w : World) : Prop where
  dvd : w.width.bytes ∣ len
  tx : w.txCount + w.written * w.width.bytes = len
  rx : w.rxCount + w.read * w.width.bytes = len
  frames : w.written = w.read + w.txflr + w.rxflr + w.lost
  txflr : w.txflr ≤ SPI_FIFO_DEPTH
  rxflr : w.rxflr ≤ SPI_FIFO_DEPTH
  completed : w.thread ≠ .idle → Event.complete ∈ w.events → w.rxCount = 0
  last : ∀ r, w.last = some r → r.lost ≠ 0 → r.value ≠ 0

/-- All that is to be received has been read, so no frame was lost. -/
theorem Flow.lost_eq_zero {len : Nat} {w : World} (h : Flow len w) (hrx : w.rxCount = 0) :
    w.lost = 0 := by
  have hle : w.written * w.width.bytes ≤ w.read * w.width.bytes := by
    have := h.tx
    have := h.rx
    omega
  have hwritten : w.written ≤ w.read := Nat.le_of_mul_le_mul_right hle (bytes_pos w.width)
  have := h.frames
  omega

/-- The value of a transfer that lost a frame is an error. -/
theorem Flow.value_ne_zero {len : Nat} {w : World} (h : Flow len w) (hown : Own w)
    (hthread : w.thread ≠ .idle) (hdone : w.xferDone = true) (hlost : w.lost ≠ 0) :
    w.xferErr ≠ 0 := by
  intro hzero
  have hne : w.events ≠ [] := by
    rw [hown.done] at hdone
    simpa using hdone
  rw [hown.err] at hzero
  exact hlost (h.lost_eq_zero (h.completed hthread (complete_of_errOf hne hzero)))

private theorem begin_flow {w : World} {len : Nat} (htx : w.txflr = 0) (hrx : w.rxflr = 0)
    (hdvd : w.width.bytes ∣ len) : Flow len (w.begin len) := by
  have hlen : len + 0 * w.width.bytes = len := by omega
  have hframes : 0 = 0 + w.txflr + w.rxflr + 0 := by omega
  refine ⟨hdvd, hlen, hlen, hframes, ?_, ?_, by rintro - ⟨⟩, by rintro r ⟨⟩⟩
  · exact htx.le.trans (Nat.zero_le _)
  · exact hrx.le.trans (Nat.zero_le _)

/-- What a step preserves in the course of a transfer. -/
theorem flow_step {len : Nat} {w w' : World} {a : Act} (hsound : Sound w) (h : Flow len w)
    (hwithin : a.within = true) (hstep : Step w a w') : Flow len w' := by
  cases did_of_step hstep with
  | reset | refuse | start => cases hwithin
  | push hfills =>
    simp only [fills, Bool.and_eq_true, decide_eq_true_eq] at hfills
    have hframes : w.written + 1 = w.read + (w.txflr + 1) + w.rxflr + w.lost := by
      have := h.frames
      omega
    have htxflr : w.txflr + 1 ≤ SPI_FIFO_DEPTH := by omega
    exact ⟨h.dvd, count_next hfills.1 h.tx h.dvd, h.rx, hframes, htxflr, h.rxflr, h.completed,
      h.last⟩
  | prefilled hthread =>
    refine ⟨h.dvd, h.tx, h.rx, h.frames, h.txflr, h.rxflr, fun _ ↦ h.completed ?_, h.last⟩
    rw [hthread]
    decide
  | filled | enter | fillLock | drainLock | drained | sleep =>
    exact ⟨h.dvd, h.tx, h.rx, h.frames, h.txflr, h.rxflr, h.completed, h.last⟩
  | rxoLock =>
    refine ⟨h.dvd, h.tx, h.rx, h.frames, h.txflr, h.rxflr, fun ht hmem ↦ h.completed ht ?_, h.last⟩
    rcases List.mem_append.mp hmem with hmem | hmem
    · exact hmem
    · exact absurd hmem (by decide)
  | txoLock =>
    refine ⟨h.dvd, h.tx, h.rx, h.frames, h.txflr, h.rxflr, fun ht hmem ↦ h.completed ht ?_, h.last⟩
    rcases List.mem_append.mp hmem with hmem | hmem
    · exact hmem
    · exact absurd hmem (by decide)
  | pop hdrains =>
    simp only [drains, Bool.and_eq_true, decide_eq_true_eq] at hdrains
    have hframes : w.written = (w.read + 1) + w.txflr + (w.rxflr - 1) + w.lost := by
      have := h.frames
      omega
    refine ⟨h.dvd, h.tx, count_next hdrains.2 h.rx h.dvd, hframes, h.txflr, ?_, ?_, h.last⟩
    · exact (Nat.sub_le _ _).trans h.rxflr
    · intro ht hmem
      exact absurd (h.completed ht hmem) hdrains.2
  | complete hcount =>
    exact ⟨h.dvd, h.tx, h.rx, h.frames, h.txflr, h.rxflr, fun _ _ ↦ hcount, h.last⟩
  | done late hthread hdone =>
    refine ⟨h.dvd, h.tx, h.rx, h.frames, h.txflr, h.rxflr, fun ht ↦ absurd rfl ht, ?_⟩
    rintro r ⟨⟩ hlost
    have hwaits : w.thread ≠ .idle := by
      rw [hthread]
      decide
    exact h.value_ne_zero (hsound.own hwaits) hwaits hdone hlost
  | late =>
    refine ⟨h.dvd, h.tx, h.rx, h.frames, h.txflr, h.rxflr, fun ht ↦ absurd rfl ht, ?_⟩
    rintro r ⟨⟩ -
    have hne : -ETIMEDOUT ≠ 0 := by decide
    exact hne
  | shift htx hrx =>
    have hframes : w.written = w.read + (w.txflr - 1) + (w.rxflr + 1) + w.lost := by
      have := h.frames
      omega
    exact ⟨h.dvd, h.tx, h.rx, hframes, (Nat.sub_le _ _).trans h.txflr, hrx, h.completed, h.last⟩
  | overflow htx =>
    have hframes : w.written = w.read + (w.txflr - 1) + w.rxflr + (w.lost + 1) := by
      have := h.frames
      omega
    exact ⟨h.dvd, h.tx, h.rx, hframes, (Nat.sub_le _ _).trans h.txflr, h.rxflr, h.completed, h.last⟩

/-- In the course of a transfer that begins in a quiet state with empty FIFOs, each FIFO holds at
most its depth. What is written and not read is in one of them, or overflowed: then the transfer is
not complete, and does not return 0. -/
theorem transfer_flow {w w' : World} {len : Nat} {as : List Act} (hquiet : w.quiet = true)
    (htx : w.txflr = 0) (hrx : w.rxflr = 0) (hlen : len % w.width.bytes = 0)
    (hrun : Runs Step w (.start len :: as) w') (has : ∀ a ∈ as, a.within = true) :
    w'.txflr ≤ SPI_FIFO_DEPTH ∧ w'.rxflr ≤ SPI_FIFO_DEPTH ∧
      w'.written - w'.read = w'.txflr + w'.rxflr + w'.lost ∧
      (w'.lost ≠ 0 → w'.rxCount ≠ 0) ∧ ∀ r, w'.last = some r → r.lost ≠ 0 → r.value ≠ 0 := by
  cases hrun with
  | @cons _ v _ _ _ head tail =>
    have hv : v = w.begin len := by
      cases did_of_step head with
      | refuse _ _ hne => exact absurd hlen hne
      | start => rfl
    have hnext : ∀ (v : World) (a : Act) (v' : World), a.within = true → Sound v ∧ Flow len v →
        Step v a v' → Sound v' ∧ Flow len v' := by
      intro v a v' ha h hstep
      refine ⟨sound_step h.1 ?_ hstep, flow_step h.1 h.2 ha hstep⟩
      rintro n rfl
      cases ha
    have hbegin : Sound v ∧ Flow len v := by
      rw [hv]
      exact ⟨begin_sound hquiet len, begin_flow htx hrx (Nat.dvd_of_mod_eq_zero hlen)⟩
    have hinv := tail.invariant_of _ hnext has hbegin
    have hflow := hinv.2
    have hframes := hflow.frames
    refine ⟨hflow.txflr, hflow.rxflr, by omega, fun hlost hcount ↦ ?_, hflow.last⟩
    exact hlost (hflow.lost_eq_zero hcount)

/-- The count of frames in one transfer. -/
theorem transfer_flow_one : ∃ w : World, w.last = some (oneReturn 0) ∧
    w.written - w.read = w.txflr + w.rxflr + w.lost := by
  have hstep : ∀ w a w', World.after w a = some w' → Step w a w' := fun _ _ _ h ↦ h
  obtain ⟨w, hrun, hlast⟩ := exists_runs hstep (boot .char) oneFrame
    (fun w ↦ w.last = some (oneReturn 0)) (by decide +kernel)
  have hflow := transfer_flow (by decide) rfl rfl (by decide) hrun (by decide)
  exact ⟨w, of_decide_eq_true hlast, hflow.2.2.1⟩

/-- The first interrupt comes when the transmit FIFO is empty. The handler fills it again before the
receive FIFO is drained. -/
def refilled : List Act :=
  List.replicate 32 Act.push ++ Act.fillDone :: List.replicate 32 Act.shift ++
    [Act.enter, .lock] ++ List.replicate 32 Act.push ++ [Act.shift]

/-- 64 frames are written and none is read, and the receive FIFO overflows. -/
theorem refill_overflows : ∃ w, Runs Step (boot .char) (.start 64 :: refilled) w ∧
    w.written - w.read = 2 * SPI_FIFO_DEPTH ∧ w.lost = 1 := by
  have hstep : ∀ w a w', World.after w a = some w' → Step w a w' := fun _ _ _ h ↦ h
  obtain ⟨w, hrun, hcheck⟩ := exists_runs hstep (boot .char) (.start 64 :: refilled)
    (fun w ↦ w.written - w.read = 2 * SPI_FIFO_DEPTH ∧ w.lost = 1) (by decide +kernel)
  exact ⟨w, hrun, of_decide_eq_true hcheck⟩

end World

end Xv6K210.Spi
