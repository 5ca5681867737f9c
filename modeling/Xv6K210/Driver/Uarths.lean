import Xv6K210.Base.Runs
import Xv6K210.Driver.Ringbuffer

/-!
# Reading from the UART

Source `kernel/driver/uarths.c:36–46, 161–284, 425–452, 477–488`. The interrupt handler puts the
bytes of the hardware into a ring, from which processes read. A reader sleeps while the ring is
empty; a flush empties the ring and ends the calls that wait for bytes. The sections under the lock
up to a `sleep` are steps.
-/

namespace Xv6K210.Uarths

open Base Driver Function

/-- `UARTHS_RX_BUF_SIZE`. -/
def rxBufSize : UInt32 := 32768

/-- `struct uarths_rx`. -/
structure Rx where
  ring : Ringbuffer
  dropped : UInt32
  epoch : UInt32

/-- The bytes that the observer leaves. -/
def left (cs : List (UInt8 × Bool)) : List UInt8 := (cs.filter fun c ↦ !c.2).map Prod.fst

/-- The loop of `uarths_rx_service` over the bytes of the hardware, each with whether the observer
consumes it; the flag is `received`. -/
def rxService : List (UInt8 × Bool) → Rx → Bool → Option (Rx × Bool)
  | [], rx, received => some (rx, received)
  | c :: cs, rx, received =>
    if c.2 then rxService cs rx received
    else
      (rx.ring.push c.1).bind fun x ↦
        if x.1 then rxService cs { rx with ring := x.2 } true
        else rxService cs { rx with ring := x.2, dropped := rx.dropped + 1 } received

/-- The loop of `uarths_read`, which takes at most so many bytes out of the ring. -/
def takeAll : Nat → Ringbuffer → List UInt8 → Option (Ringbuffer × List UInt8)
  | 0, r, got => some (r, got)
  | n + 1, r, got =>
    r.pop.bind fun x ↦
      match x.1 with
      | none => some (x.2, got)
      | some c => takeAll n x.2 (got ++ [c])

/-- Where a process is in `uarths_read`. -/
inductive RxPc where
  | out
  /-- before the lock -/
  | entered (n : Nat)
  /-- in the loop of `uarths_rx_wait_data` -/
  | waiting (n : Nat) (epoch : UInt32) (asleep : Bool)
  deriving DecidableEq, Repr

def RxPc.awake : RxPc → RxPc
  | .waiting n epoch _ => .waiting n epoch false
  | pc => pc

def RxPc.asleep : RxPc → Bool
  | .waiting _ _ asleep => asleep
  | _ => false

/-- How a call ends. -/
inductive Got where
  | bytes (got : List UInt8)
  | flushed
  | interrupted
  deriving DecidableEq, Repr

/-- What it returns. -/
def Got.value : Got → Int
  | .bytes got => got.length
  | .flushed => 0
  | .interrupted => -1

/-- The receiver and the processes that read, with a record: the bytes that the observer left and
those that were returned since the last flush, the number of flushes, and what it was when a call
took the lock. -/
structure Receiver (Q : Type) where
  rx : Rx
  /-- The FIFO of the hardware. What the observer will say is drawn when a byte arrives. -/
  fifo : List (UInt8 × Bool)
  pc : Q → RxPc
  kept : List UInt8
  given : List UInt8
  flushes : Nat
  since : Q → Nat

variable {Q : Type}

/-- `uarthsinit`. -/
def Receiver.init (buf : Nat → UInt8) : Receiver Q where
  rx := ⟨ringbufferInit buf 32769 rxBufSize, 0, 0⟩
  fifo := []
  pc := fun _ ↦ .out
  kept := []
  given := []
  flushes := 0
  since := fun _ ↦ 0

/-- A step. -/
inductive RxAct (Q : Type) where
  /-- the hardware receives a byte -/
  | arrive (c : UInt8) (consumed : Bool)
  /-- the receiving half of `uarths_dw_isr` -/
  | service
  /-- `uarths_flush_rx` -/
  | flush
  /-- the draining in `uarths_set_baud` -/
  | drain
  /-- a process asks for some bytes -/
  | call (q : Q) (n : Nat)
  /-- the process goes on; a signal may be pending behind the `sleep` that ends and before the next -/
  | run (q : Q) (woken pending : Bool)
  /-- a process is woken up for another reason -/
  | wake (q : Q)

section

variable [DecidableEq Q]

def Receiver.goto (s : Receiver Q) (q : Q) (pc : RxPc) : Receiver Q :=
  { s with pc := update s.pc q pc }

/-- The loop of `uarths_rx_wait_data` up to its next `sleep`, and the end of `uarths_read`. -/
def Receiver.wait (s : Receiver Q) (q : Q) (n : Nat) (epoch : UInt32) (pending : Bool) :
    Option (Receiver Q × Option Got) :=
  if s.rx.ring.empty then
    if pending then some (s.goto q .out, some .interrupted)
    else some (s.goto q (.waiting n epoch true), none)
  else
    (takeAll n s.rx.ring []).map fun x ↦
      ({ s.goto q .out with rx := { s.rx with ring := x.1 }, given := s.given ++ x.2 },
        some (.bytes x.2))

/-- The next part of a call, with what it returns at its end. -/
def Receiver.run (s : Receiver Q) (q : Q) (woken pending : Bool) :
    Option (Receiver Q × Option Got) :=
  match s.pc q with
  | .out => none
  | .entered n =>
    { s with since := update s.since q s.flushes }.wait q n s.rx.epoch pending
  | .waiting n epoch asleep =>
    if asleep then none
    else if woken then some (s.goto q .out, some .interrupted)
    else if epoch ≠ s.rx.epoch then some (s.goto q .out, some .flushed)
    else s.wait q n epoch pending

/-- The effect of a step, where it can be taken. -/
def Receiver.step (s : Receiver Q) : RxAct Q → Option (Receiver Q × Option Got)
  | .arrive c consumed => some ({ s with fifo := s.fifo ++ [(c, consumed)] }, none)
  | .service =>
    (rxService s.fifo s.rx false).map fun x ↦
      ({ s with
        rx := x.1
        fifo := []
        kept := s.kept ++ left s.fifo
        pc := if x.2 then fun q ↦ (s.pc q).awake else s.pc }, none)
  | .flush =>
    some ({ s with
      rx := ⟨s.rx.ring.reset, 0, s.rx.epoch + 1⟩
      fifo := []
      kept := []
      given := []
      flushes := s.flushes + 1
      pc := fun q ↦ (s.pc q).awake }, none)
  | .drain => some ({ s with fifo := [] }, none)
  | .call q n => if s.pc q = .out ∧ 0 < n then some (s.goto q (.entered n), none) else none
  | .run q woken pending => s.run q woken pending
  | .wake q => some (s.goto q (s.pc q).awake, none)

def Receiver.Step (s : Receiver Q) (a : RxAct Q) (t : Receiver Q) : Prop :=
  ∃ got, s.step a = some (t, got)

end

/-! ### The loops -/

/-- The handler appends the bytes that are left, up to the size of the ring, and counts the
others. -/
theorem rxService_eq {rx : Rx} {items : List UInt8} (h : Holds rx.ring items)
    (cs : List (UInt8 × Bool)) (received : Bool) :
    ∃ rx' received', rxService cs rx received = some (rx', received') ∧
      Holds rx'.ring ((items ++ left cs).take rx.ring.capacity.toNat) ∧
      rx'.ring.capacity = rx.ring.capacity ∧ rx'.epoch = rx.epoch ∧
      rx'.dropped = rx.dropped +
        UInt32.ofNat (items.length + (left cs).length - rx.ring.capacity.toNat) ∧
      (received' = false →
        received = false ∧ (items ++ left cs).take rx.ring.capacity.toNat = items) := by
  induction cs generalizing rx items received with
  | nil =>
    have htake : (items ++ left []).take rx.ring.capacity.toNat = items := by
      rw [left, List.filter_nil, List.map_nil, List.append_nil]
      exact List.take_of_length_le h.fits
    refine ⟨rx, received, rfl, by rw [htake]; exact h, rfl, rfl, ?_, fun hr ↦ ⟨hr, htake⟩⟩
    rw [left, List.filter_nil, List.map_nil, List.length_nil, Nat.add_zero,
      Nat.sub_eq_zero_of_le h.fits]
    exact (UInt32.add_zero _).symm
  | cons c cs ih =>
    obtain ⟨c, consumed⟩ := c
    rw [rxService]
    cases consumed with
    | true => exact ih h received
    | false =>
      have hleft : left ((c, false) :: cs) = c :: left cs := rfl
      rw [hleft, if_neg Bool.false_ne_true]
      by_cases hroom : items.length < rx.ring.capacity.toNat
      · obtain ⟨ring, hpush, hholds, hcap⟩ := h.push_room hroom c
        have hring : Holds ({ rx with ring } : Rx).ring (items ++ [c]) := hholds
        obtain ⟨rx', received', hrun, hholds', hcap', hepoch, hdropped, hreceived⟩ := ih hring true
        rw [hcap, List.append_assoc, List.singleton_append] at hholds'
        rw [List.length_append, List.length_singleton, hcap] at hdropped
        refine ⟨rx', received', ?_, hholds', hcap'.trans hcap, hepoch, ?_, fun hr ↦ ?_⟩
        · rw [hpush]
          exact hrun
        · rw [hdropped, List.length_cons, Nat.add_assoc, Nat.add_comm 1]
        · exact absurd (hreceived hr).1 (by decide)
      · have hfull : items.length = rx.ring.capacity.toNat := by
          have := h.fits
          omega
        have htake : ∀ l : List UInt8, (items ++ l).take rx.ring.capacity.toNat = items :=
          fun l ↦ List.take_left' hfull
        have hring : Holds ({ rx with dropped := rx.dropped + 1 } : Rx).ring items := h
        obtain ⟨rx', received', hrun, hholds', hcap', hepoch, hdropped, hreceived⟩ :=
          ih hring received
        rw [htake] at hholds'
        refine ⟨rx', received', ?_, by rw [htake]; exact hholds', hcap', hepoch, ?_, fun hr ↦
          ⟨(hreceived hr).1, htake _⟩⟩
        · rw [h.push_full hfull]
          exact hrun
        · rw [hdropped, List.length_cons, hfull, Nat.add_sub_cancel_left, Nat.add_sub_cancel_left,
            Nat.add_comm _ 1, UInt32.ofNat_add, UInt32.add_assoc]
          rfl

/-- The oldest bytes are taken. -/
theorem takeAll_eq {r : Ringbuffer} {items : List UInt8} (h : Holds r items) (n : Nat)
    (got : List UInt8) :
    ∃ r', takeAll n r got = some (r', got ++ items.take n) ∧ Holds r' (items.drop n) ∧
      r'.capacity = r.capacity := by
  induction n generalizing r items got with
  | zero => exact ⟨r, by rw [takeAll, List.take_zero, List.append_nil], h, rfl⟩
  | succ n ih =>
    rw [takeAll]
    cases items with
    | nil => exact ⟨r, by rw [h.pop_empty, List.take_nil, List.append_nil]; rfl, h, rfl⟩
    | cons b items =>
      obtain ⟨r1, hpop, hholds, hcap⟩ := h.pop_cons
      obtain ⟨r2, htake, hholds', hcap'⟩ := ih hholds (got ++ [b])
      refine ⟨r2, ?_, hholds', hcap'.trans hcap⟩
      rw [hpop, List.take_succ_cons, ← List.singleton_append, ← List.append_assoc]
      exact htake

/-! ### What holds between the steps -/

/-- Where a process can be when the ring holds some bytes: for a reader that sleeps there is nothing
to read, and the epoch is still the one that it saw. -/
def RxPc.Fits (items : List UInt8) (flushes since : Nat) : RxPc → Prop
  | .out => True
  | .entered n => 0 < n
  | .waiting n epoch asleep =>
    0 < n ∧ epoch = UInt32.ofNat since ∧ (asleep = true → items = [] ∧ epoch = UInt32.ofNat flushes)

/-- The ring holds these bytes; with those that were returned they are the bytes received, without
the ones that are counted as dropped. -/
structure Receiver.Sound (s : Receiver Q) (items : List UInt8) : Prop where
  holds : Holds s.rx.ring items
  capacity : s.rx.ring.capacity = rxBufSize
  stream : (s.given ++ items).Sublist s.kept
  dropped : s.rx.dropped = UInt32.ofNat (s.kept.length - (s.given ++ items).length)
  epoch : s.rx.epoch = UInt32.ofNat s.flushes
  fits : ∀ q, (s.pc q).Fits items s.flushes (s.since q)

/-- A reader that is woken fits any queue. -/
theorem RxPc.Fits.awake {items : List UInt8} {flushes since : Nat} {pc : RxPc}
    (h : pc.Fits items flushes since) (items' : List UInt8) (flushes' : Nat) :
    pc.awake.Fits items' flushes' since := by
  cases pc with
  | out => trivial
  | entered n => exact h
  | waiting n epoch asleep => exact ⟨h.1, h.2.1, fun hfalse ↦ absurd hfalse (by decide)⟩

/-- A reader still fits when bytes were taken. -/
theorem RxPc.Fits.take {items : List UInt8} {flushes since : Nat} {pc : RxPc}
    (h : pc.Fits items flushes since) (n : Nat) : pc.Fits (items.drop n) flushes since := by
  cases pc with
  | out => trivial
  | entered m => exact h
  | waiting m epoch asleep =>
    refine ⟨h.1, h.2.1, fun hasleep ↦ ⟨?_, (h.2.2 hasleep).2⟩⟩
    rw [(h.2.2 hasleep).1, List.drop_nil]

/-- A process that goes on is in a call, and awake. -/
theorem Receiver.awake_of_run [DecidableEq Q] {s : Receiver Q} {q : Q} {woken pending : Bool}
    {x : Receiver Q × Option Got} (h : s.run q woken pending = some x) :
    s.pc q ≠ .out ∧ (s.pc q).asleep = false := by
  unfold Receiver.run at h
  cases hpc : s.pc q with
  | out =>
    rw [hpc] at h
    cases h
  | entered n => exact ⟨by rintro ⟨⟩, rfl⟩
  | waiting n epoch asleep =>
    rw [hpc] at h
    cases asleep with
    | false => exact ⟨by rintro ⟨⟩, rfl⟩
    | true => cases h

namespace Receiver.Sound

variable [DecidableEq Q] {s : Receiver Q} {items : List UInt8}

/-- A reader goes on to a place that fits. -/
theorem goto (h : s.Sound items) {q : Q} {pc : RxPc} (hpc : pc.Fits items s.flushes (s.since q)) :
    (s.goto q pc).Sound items := by
  refine { h with fits := fun q' ↦ ?_ }
  change (update s.pc q pc q').Fits items s.flushes (s.since q')
  by_cases heq : q' = q
  · rwa [heq, update_self]
  · rw [update_of_ne heq]
    exact h.fits q'

/-- The interrupt keeps what fits into the buffer. -/
theorem service (h : s.Sound items) : ∃ t, s.step .service = some (t, none) ∧
    t.Sound ((items ++ left s.fifo).take rxBufSize.toNat) := by
  obtain ⟨rx, received, hrun, hholds, hcap, hepoch, hdropped, hreceived⟩ :=
    rxService_eq h.holds s.fifo false
  rw [h.capacity] at hholds hcap hdropped hreceived
  refine ⟨_, by rw [Receiver.step, hrun]; rfl, hholds, hcap, ?_, ?_, hepoch.trans h.epoch,
    fun q ↦ ?_⟩
  · have hsub : (s.given ++ (items ++ left s.fifo)).Sublist (s.kept ++ left s.fifo) := by
      rw [← List.append_assoc]
      exact h.stream.append (List.Sublist.refl _)
    exact ((List.Sublist.refl _).append (List.take_sublist _ _)).trans hsub
  · have hlen := h.stream.length_le
    have hfits := h.holds.fits
    rw [h.capacity] at hfits
    rw [List.length_append] at hlen
    dsimp only
    rw [hdropped, h.dropped, ← UInt32.ofNat_add]
    refine congrArg UInt32.ofNat ?_
    simp only [List.length_append, List.length_take]
    omega
  · cases received with
    | true => exact (h.fits q).awake _ _
    | false =>
      rw [(hreceived rfl).2]
      exact h.fits q

/-- A flush drops the queue. -/
theorem flush (h : s.Sound items) : ∃ t, s.step .flush = some (t, none) ∧ t.Sound [] := by
  refine ⟨_, rfl, h.holds.reset, h.capacity, List.Sublist.refl _, rfl, ?_, fun q ↦ ?_⟩
  · dsimp only
    rw [h.epoch, UInt32.ofNat_add]
    rfl
  · exact (h.fits q).awake _ _

/-- A reader that has seen the epoch sleeps where the ring is empty, and takes bytes where it is
not. -/
theorem wait (h : s.Sound items) (q : Q) {n : Nat} (hn : 0 < n) {epoch : UInt32}
    (hsince : epoch = UInt32.ofNat (s.since q)) (hepoch : epoch = s.rx.epoch) (pending : Bool) :
    ∃ t got items', s.wait q n epoch pending = some (t, got) ∧ t.Sound items' ∧
      got.map Got.value ≠ some 0 := by
  unfold Receiver.wait
  by_cases hempty : s.rx.ring.empty = true
  · have hnil : items = [] := List.length_eq_zero_iff.mp (h.holds.empty_iff.mp hempty)
    rw [if_pos hempty]
    cases pending with
    | true => exact ⟨_, _, items, rfl, h.goto trivial, by rintro ⟨⟩⟩
    | false =>
      exact ⟨_, _, items, rfl, h.goto ⟨hn, hsince, fun _ ↦ ⟨hnil, hepoch.trans h.epoch⟩⟩,
        by rintro ⟨⟩⟩
  · obtain ⟨ring, htake, hholds, hcap⟩ := takeAll_eq h.holds n []
    have hgoto : (s.goto q .out).Sound items := h.goto trivial
    have hsplit : s.given ++ ([] ++ items.take n) ++ items.drop n = s.given ++ items := by
      rw [List.nil_append, List.append_assoc, List.take_append_drop]
    rw [if_neg hempty, htake]
    have hsome : 0 < (items.take n).length := by
      rw [List.length_take]
      exact Nat.lt_min.mpr ⟨hn, Nat.pos_of_ne_zero (mt h.holds.empty_iff.mpr hempty)⟩
    refine ⟨_, _, items.drop n, rfl, ?_, fun hzero ↦ ?_⟩
    · refine ⟨hholds, hcap.trans h.capacity, hsplit ▸ h.stream, ?_, h.epoch, fun q' ↦
        (hgoto.fits q').take n⟩
      dsimp only
      rw [hsplit]
      exact h.dropped
    · have hlen : ((items.take n).length : Int) = 0 := Option.some.inj hzero
      omega

/-- A call goes on unless it sleeps, and returns 0 just where the epoch is not the one that it
saw. -/
theorem run (h : s.Sound items) {q : Q} (hout : s.pc q ≠ .out) (hawake : (s.pc q).asleep = false)
    (woken pending : Bool) :
    ∃ t got items', s.run q woken pending = some (t, got) ∧ t.Sound items' ∧
      (got.map Got.value = some 0 ↔ (∃ n epoch, s.pc q = .waiting n epoch false) ∧ woken = false ∧
        UInt32.ofNat (s.since q) ≠ s.rx.epoch) := by
  unfold Receiver.run
  cases hpc : s.pc q with
  | out => exact absurd hpc hout
  | entered n =>
    have hsince : ({ s with since := update s.since q s.flushes } : Receiver Q).Sound items := by
      refine { h with fits := fun q' ↦ ?_ }
      change (s.pc q').Fits items s.flushes (update s.since q s.flushes q')
      by_cases heq : q' = q
      · have hfits := h.fits q
        rw [hpc] at hfits
        rw [heq, hpc]
        exact hfits
      · rw [update_of_ne heq]
        exact h.fits q'
    have hepoch : s.rx.epoch = UInt32.ofNat (update s.since q s.flushes q) := by
      rw [update_self, h.epoch]
    have hn : 0 < n := by
      have hfits := h.fits q
      rwa [hpc] at hfits
    obtain ⟨t, got, items', hwait, hsound, hgot⟩ := hsince.wait q hn hepoch rfl pending
    refine ⟨t, got, items', hwait, hsound, iff_of_false hgot ?_⟩
    rintro ⟨⟨n, epoch, hfalse⟩, -⟩
    cases hfalse
  | waiting n epoch asleep =>
    rw [hpc] at hawake
    cases (hawake : asleep = false)
    have hfits := h.fits q
    rw [hpc] at hfits
    have hsince : epoch = UInt32.ofNat (s.since q) := hfits.2.1
    dsimp only
    rw [if_neg Bool.false_ne_true, ← hsince]
    cases woken with
    | true =>
      refine ⟨_, _, items, rfl, h.goto trivial, iff_of_false (by rintro ⟨⟩) ?_⟩
      rintro ⟨-, hfalse, -⟩
      cases hfalse
    | false =>
      rw [if_neg Bool.false_ne_true]
      by_cases hepoch : epoch = s.rx.epoch
      · obtain ⟨t, got, items', hwait, hsound, hgot⟩ := h.wait q hfits.1 hsince hepoch pending
        rw [if_neg (not_not_intro hepoch)]
        exact ⟨t, got, items', hwait, hsound, iff_of_false hgot fun hne ↦ hne.2.2 hepoch⟩
      · rw [if_pos hepoch]
        exact ⟨_, _, items, rfl, h.goto trivial, iff_of_true rfl ⟨⟨n, epoch, rfl⟩, rfl, hepoch⟩⟩

/-- Every step keeps the receiver sound. -/
theorem step (h : s.Sound items) {a : RxAct Q} {t : Receiver Q} (hstep : s.Step a t) :
    ∃ items', t.Sound items' := by
  obtain ⟨got, hstep⟩ := hstep
  cases a with
  | arrive c consumed =>
    cases hstep
    exact ⟨items, { h with }⟩
  | drain =>
    cases hstep
    exact ⟨items, { h with }⟩
  | service =>
    obtain ⟨t', ht', hsound⟩ := h.service
    cases ht'.symm.trans hstep
    exact ⟨_, hsound⟩
  | flush =>
    obtain ⟨t', ht', hsound⟩ := h.flush
    cases ht'.symm.trans hstep
    exact ⟨_, hsound⟩
  | call q n =>
    rw [Receiver.step] at hstep
    split_ifs at hstep with hcall
    cases hstep
    exact ⟨items, h.goto hcall.2⟩
  | run q woken pending =>
    change s.run q woken pending = _ at hstep
    have hgo := Receiver.awake_of_run hstep
    obtain ⟨t', got', items', ht', hsound, -⟩ := h.run hgo.1 hgo.2 woken pending
    cases ht'.symm.trans hstep
    exact ⟨items', hsound⟩
  | wake q =>
    cases hstep
    exact ⟨items, h.goto ((h.fits q).awake _ _)⟩

end Receiver.Sound

/-- The receiver is sound at first. -/
theorem Receiver.sound_init (buf : Nat → UInt8) : (Receiver.init buf : Receiver Q).Sound [] where
  holds := holds_init (by decide) (by decide) buf
  capacity := rfl
  stream := List.Sublist.refl _
  dropped := rfl
  epoch := rfl
  fits := fun _ ↦ trivial

variable [DecidableEq Q]

/-- The receiver is sound after every run. -/
theorem Receiver.sound_of_runs {buf : Nat → UInt8} {as : List (RxAct Q)} {s : Receiver Q}
    (h : Runs Receiver.Step (Receiver.init buf) as s) : ∃ items, s.Sound items :=
  h.invariant (fun s ↦ ∃ items, s.Sound items) (fun _ _ _ ⟨_, hs⟩ hstep ↦ hs.step hstep)
    ⟨[], Receiver.sound_init buf⟩

/-- However bytes arrive and calls, interrupts and flushes are interleaved, the bytes that calls
returned since the last flush and those in the ring are bytes that arrived since, in their order,
each once; the others are counted. -/
theorem reads_in_order {buf : Nat → UInt8} {as : List (RxAct Q)} {s : Receiver Q}
    (h : Runs Receiver.Step (Receiver.init buf) as s) :
    ∃ items, Holds s.rx.ring items ∧ (s.given ++ items).Sublist s.kept ∧
      s.rx.dropped = UInt32.ofNat (s.kept.length - (s.given ++ items).length) := by
  obtain ⟨items, hs⟩ := Receiver.sound_of_runs h
  exact ⟨items, hs.holds, hs.stream, hs.dropped⟩

/-- In every state of a run, a process that is in a call can go on, whatever signals are pending, or
there is nothing to read and no flush that it has not seen. -/
theorem read_never_stuck {buf : Nat → UInt8} {as : List (RxAct Q)} {s : Receiver Q}
    (h : Runs Receiver.Step (Receiver.init buf) as s) {q : Q} (hq : s.pc q ≠ .out) :
    (∀ woken pending, ∃ t, s.Step (.run q woken pending) t) ∨
      s.rx.ring.used = 0 ∧ s.since q % 2 ^ 32 = s.flushes % 2 ^ 32 := by
  obtain ⟨items, hs⟩ := Receiver.sound_of_runs h
  cases hasleep : (s.pc q).asleep with
  | false =>
    refine .inl fun woken pending ↦ ?_
    obtain ⟨t, got, -, hrun, -⟩ := hs.run hq hasleep woken pending
    exact ⟨t, got, hrun⟩
  | true =>
    have hfits := hs.fits q
    cases hpc : s.pc q with
    | out => exact absurd hpc hq
    | entered n =>
      rw [hpc] at hasleep
      cases hasleep
    | waiting n epoch asleep =>
      rw [hpc] at hfits hasleep
      obtain ⟨hnil, hepoch⟩ := hfits.2.2 hasleep
      refine .inr ⟨?_, ?_⟩
      · rw [← UInt32.toNat_inj, hs.holds.used_toNat, hnil]
        rfl
      · have hsame : UInt32.ofNat (s.since q) = UInt32.ofNat s.flushes :=
          hfits.2.1.symm.trans hepoch
        rw [← UInt32.toNat_inj, UInt32.toNat_ofNat', UInt32.toNat_ofNat'] at hsame
        exact hsame

/-- A part of a call ends it with 0 just where it comes out of a `sleep` without a signal, and the
ring was flushed since the call took the lock (2^32 flushes count as none). -/
theorem read_returns_zero {buf : Nat → UInt8} {as : List (RxAct Q)} {s t : Receiver Q}
    (h : Runs Receiver.Step (Receiver.init buf) as s) {q : Q} {woken pending : Bool}
      {got : Option Got}
    (hstep : s.step (.run q woken pending) = some (t, got)) :
    got.map Got.value = some 0 ↔ (∃ n epoch, s.pc q = .waiting n epoch false) ∧ woken = false ∧
      s.since q % 2 ^ 32 ≠ s.flushes % 2 ^ 32 := by
  obtain ⟨items, hs⟩ := Receiver.sound_of_runs h
  change s.run q woken pending = _ at hstep
  obtain ⟨hout, hawake⟩ := Receiver.awake_of_run hstep
  obtain ⟨t', got', -, hrun, -, hgot⟩ := hs.run hout hawake woken pending
  cases hrun.symm.trans hstep
  rw [hgot, hs.epoch, Ne, ← UInt32.toNat_inj, UInt32.toNat_ofNat', UInt32.toNat_ofNat']

/-! ### Two readers -/

/-- The state after steps that can be taken. -/
def Receiver.next (s : Receiver Bool) (a : RxAct Bool) : Option (Receiver Bool) :=
  (s.step a).map Prod.fst

/-- A step that computes is a step. -/
theorem Receiver.step_of_next (s : Receiver Bool) (a : RxAct Bool) (t : Receiver Bool)
    (h : s.next a = some t) : s.Step a t := by
  obtain ⟨x, hx, rfl⟩ := Option.map_eq_some_iff.mp h
  exact ⟨x.2, hx⟩

/-- A byte arrives and is read. -/
theorem reads_in_order_small : ∃ as s items,
    Runs Receiver.Step (Receiver.init fun _ ↦ 0 : Receiver Bool) as s ∧ s.given = [7] ∧
    Holds s.rx.ring items ∧ (s.given ++ items).Sublist s.kept := by
  obtain ⟨s, hrun, hcheck⟩ := exists_runs Receiver.step_of_next (Receiver.init fun _ ↦ 0)
    [.call true 1, .run true false false, .arrive 3 true, .arrive 7 false, .arrive 8 false,
      .service,
      .run true false false] (fun s ↦ s.given = [7]) (by decide)
  obtain ⟨items, hholds, hsub, -⟩ := reads_in_order hrun
  exact ⟨_, s, items, hrun, of_decide_eq_true hcheck, hholds, hsub⟩

/-- A reader sleeps, and can go on. -/
theorem read_never_stuck_small : ∃ as s,
    Runs Receiver.Step (Receiver.init fun _ ↦ 0 : Receiver Bool) as s ∧ (s.pc true).asleep = true ∧
    ((∀ woken pending, ∃ t, s.Step (.run true woken pending) t) ∨
      s.rx.ring.used = 0 ∧ s.since true % 2 ^ 32 = s.flushes % 2 ^ 32) := by
  obtain ⟨s, hrun, hcheck⟩ := exists_runs Receiver.step_of_next (Receiver.init fun _ ↦ 0)
    [.call true 1, .run true false false] (fun s ↦ s.pc true ≠ .out ∧ (s.pc true).asleep = true)
    (by decide)
  obtain ⟨hout, hasleep⟩ := of_decide_eq_true hcheck
  exact ⟨_, s, hrun, hasleep, read_never_stuck hrun hout⟩

/-- A flush ends a read with 0. -/
theorem read_returns_zero_small : ∃ as s t,
    Runs Receiver.Step (Receiver.init fun _ ↦ 0 : Receiver Bool) as s ∧
    s.step (.run true false false) = some (t, some .flushed) ∧
    s.since true % 2 ^ 32 ≠ s.flushes % 2 ^ 32 := by
  obtain ⟨s, hrun, hcheck⟩ := exists_runs Receiver.step_of_next (Receiver.init fun _ ↦ 0)
    [.call true 1, .run true false false, .flush]
    (fun s ↦ ((s.step (.run true false false)).map Prod.snd) = some (some .flushed)) (by decide)
  obtain ⟨⟨t, got⟩, hstep, hgot⟩ := Option.map_eq_some_iff.mp (of_decide_eq_true hcheck)
  cases (hgot : got = some .flushed)
  exact ⟨_, s, t, hrun, hstep, ((read_returns_zero hrun hstep).mp rfl).2.2⟩

end Xv6K210.Uarths
