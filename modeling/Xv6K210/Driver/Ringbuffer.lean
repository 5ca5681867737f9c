import Mathlib.Algebra.Group.Nat.Defs
import Xv6K210.Base.Ring

/-!
# The byte ring buffer

Source `kernel/driver/ringbuffer.c`. A buffer for `capacity` bytes has one byte of
storage more, which stays unused. Fill level, empty and full are computed from the two indices, each
in its own way. The buffer refines a queue that holds at most `capacity` bytes.
-/

namespace Xv6K210.Driver

open Base

/-! ### Bounded queues -/

/-- A queue of at most `n` elements, the oldest first. -/
structure BoundedQueue (α : Type) (n : Nat) where
  items : List α
  fits : items.length ≤ n

namespace BoundedQueue

variable {α : Type} {n : Nat}

/-- The empty queue. -/
def empty : BoundedQueue α n := ⟨[], Nat.zero_le n⟩

/-- An element is appended, unless the queue is full. -/
def push (q : BoundedQueue α n) (a : α) : Bool × BoundedQueue α n :=
  if h : q.items.length < n then
    (true, ⟨q.items ++ [a], by rw [List.length_append, List.length_singleton]; exact h⟩)
  else (false, q)

/-- The oldest element is taken, if there is one. -/
def pop (q : BoundedQueue α n) : Option α × BoundedQueue α n :=
  (q.items.head?, ⟨q.items.tail, Nat.le_trans (List.length_tail ▸ Nat.sub_le _ _) q.fits⟩)

end BoundedQueue

/-! ### The buffer -/

/-- `struct ringbuffer`, with the bytes of its storage. -/
structure Ringbuffer where
  buf : Nat → UInt8
  /-- the number of bytes in the storage -/
  size : Nat
  capacity : UInt32
  head : UInt32
  tail : UInt32

/-- `ringbuffer_init`, on storage of `size` bytes. -/
def ringbufferInit (buf : Nat → UInt8) (size : Nat) (capacity : UInt32) : Ringbuffer where
  buf := buf
  size := size
  capacity := capacity
  head := 0
  tail := 0

namespace Ringbuffer

/-- `ringbuffer_used`. -/
def used (r : Ringbuffer) : UInt32 :=
  if r.tail ≥ r.head then r.tail - r.head else r.capacity + 1 - r.head + r.tail

/-- `ringbuffer_free`. -/
def free (r : Ringbuffer) : UInt32 := r.capacity - r.used

/-- `ringbuffer_empty`. -/
def empty (r : Ringbuffer) : Bool := r.head = r.tail

/-- The index behind `i`. -/
def next (r : Ringbuffer) (i : UInt32) : UInt32 := (i + 1) % (r.capacity + 1)

/-- `ringbuffer_full`. -/
def full (r : Ringbuffer) : Bool := r.next r.tail = r.head

/-- `ringbuffer_push`. No result is an access outside of the storage. -/
def push (r : Ringbuffer) (c : UInt8) : Option (Bool × Ringbuffer) :=
  if r.full then some (false, r)
  else if r.tail.toNat < r.size then
    some (true, { r with buf := Function.update r.buf r.tail.toNat c, tail := r.next r.tail })
  else none

/-- `ringbuffer_pop`, with the byte that is stored to `*out`. -/
def pop (r : Ringbuffer) : Option (Option UInt8 × Ringbuffer) :=
  if r.empty then some (none, r)
  else if r.head.toNat < r.size then
    some (some (r.buf r.head.toNat), { r with head := r.next r.head })
  else none

/-- `ringbuffer_reset`. -/
def reset (r : Ringbuffer) : Ringbuffer := { r with head := 0, tail := 0 }

end Ringbuffer

/-- A call of one of the operations that change the buffer. -/
inductive Call where
  | push (c : UInt8)
  | pop
  | reset
  deriving DecidableEq, Repr

/-- What a call returns. -/
inductive Reply where
  | pushed (ok : Bool)
  | popped (byte : Option UInt8)
  | done
  deriving DecidableEq, Repr

/-- A call on the buffer. -/
def Ringbuffer.step (r : Ringbuffer) : Call → Option (Reply × Ringbuffer)
  | .push c => (r.push c).map fun p ↦ (.pushed p.1, p.2)
  | .pop => r.pop.map fun p ↦ (.popped p.1, p.2)
  | .reset => some (.done, r.reset)

/-- A call on the queue. -/
def BoundedQueue.step {n : Nat} (q : BoundedQueue UInt8 n) : Call → Reply × BoundedQueue UInt8 n
  | .push c => (.pushed (q.push c).1, (q.push c).2)
  | .pop => (.popped q.pop.1, q.pop.2)
  | .reset => (.done, .empty)

/-- Calls one after the other, with their replies. -/
def Ringbuffer.run (r : Ringbuffer) : List Call → Option (List Reply × Ringbuffer)
  | [] => some ([], r)
  | c :: cs => do
    let (reply, r) ← r.step c
    let (replies, r) ← r.run cs
    pure (reply :: replies, r)

/-- The same calls on the queue. -/
def BoundedQueue.run {n : Nat} (q : BoundedQueue UInt8 n) : List Call →
    List Reply × BoundedQueue UInt8 n
  | [] => ([], q)
  | c :: cs => ((q.step c).1 :: ((q.step c).2.run cs).1, ((q.step c).2.run cs).2)

/-! ### The buffer holds the queue -/

/-- The bytes between the indices are those of the queue. -/
structure Holds (r : Ringbuffer) (items : List UInt8) : Prop where
  capacity : r.capacity.toNat < 2 ^ 32 - 1
  size : r.capacity.toNat < r.size
  head : r.head.toNat ≤ r.capacity.toNat
  tail : r.tail.toNat = (r.head.toNat + items.length) % (r.capacity.toNat + 1)
  fits : items.length ≤ r.capacity.toNat
  items : ring (r.capacity.toNat + 1) r.buf r.head.toNat items.length = items

variable {r : Ringbuffer} {items : List UInt8}

namespace Holds

private theorem tail_le (h : Holds r items) : r.tail.toNat ≤ r.capacity.toNat := by
  rw [h.tail]
  exact Nat.le_of_lt_succ (Nat.mod_lt _ (Nat.succ_pos _))

/-- The tail has wrapped around or not. -/
theorem tail_cases (h : Holds r items) :
    r.head.toNat + items.length = r.tail.toNat ∨
      r.head.toNat + items.length = r.tail.toNat + (r.capacity.toNat + 1) := by
  have htail := h.tail
  have hhead := h.head
  have hfits := h.fits
  by_cases hwrap : r.head.toNat + items.length < r.capacity.toNat + 1
  · rw [Nat.mod_eq_of_lt hwrap] at htail
    omega
  · rw [Nat.mod_eq_sub_mod (by omega), Nat.mod_eq_of_lt (by omega)] at htail
    omega

private theorem next_toNat (h : Holds r items) {i : UInt32} (hi : i.toNat ≤ r.capacity.toNat) :
    (r.next i).toNat = (i.toNat + 1) % (r.capacity.toNat + 1) := by
  have hcap := h.capacity
  have hi' : i.toNat + 1 < 2 ^ 32 := by omega
  have hcap' : r.capacity.toNat + 1 < 2 ^ 32 := by omega
  rw [Ringbuffer.next, UInt32.toNat_mod, UInt32.toNat_add, UInt32.toNat_add, UInt32.toNat_one,
    Nat.mod_eq_of_lt hi', Nat.mod_eq_of_lt hcap']

/-- `used` is the length of the queue. -/
theorem used_toNat (h : Holds r items) : r.used.toNat = items.length := by
  have hcap := h.capacity
  have hhead := h.head
  have htail := h.tail_le
  have hfits := h.fits
  have hcases := h.tail_cases
  unfold Ringbuffer.used
  split
  next hle =>
    have hle' : r.head.toNat ≤ r.tail.toNat := UInt32.le_iff_toNat_le.mp hle
    rw [UInt32.toNat_sub_of_le _ _ hle]
    omega
  next hlt =>
    have hlt' : r.tail.toNat < r.head.toNat := Nat.lt_of_not_le fun hle ↦
      hlt (UInt32.le_iff_toNat_le.mpr hle)
    have hnext : (r.capacity + 1).toNat = r.capacity.toNat + 1 := by
      rw [UInt32.toNat_add, UInt32.toNat_one, Nat.mod_eq_of_lt (by omega)]
    have hle : r.head ≤ r.capacity + 1 := UInt32.le_iff_toNat_le.mpr (by omega)
    rw [UInt32.toNat_add, UInt32.toNat_sub_of_le _ _ hle, hnext, Nat.mod_eq_of_lt (by omega)]
    omega

private theorem used_add_free (h : Holds r items) :
    r.used.toNat + r.free.toNat = r.capacity.toNat := by
  have hle : r.used ≤ r.capacity := UInt32.le_iff_toNat_le.mpr (h.used_toNat ▸ h.fits)
  have hused := UInt32.le_iff_toNat_le.mp hle
  rw [Ringbuffer.free, UInt32.toNat_sub_of_le _ _ hle]
  omega

/-- `empty` tells whether the queue is empty. -/
theorem empty_iff (h : Holds r items) : r.empty = true ↔ items.length = 0 := by
  have hhead := h.head
  have htail := h.tail_le
  have hfits := h.fits
  have hcases := h.tail_cases
  rw [Ringbuffer.empty, decide_eq_true_iff, ← UInt32.toNat_inj]
  omega

/-- `full` tells whether the queue has reached the capacity. -/
theorem full_iff (h : Holds r items) : r.full = true ↔ items.length = r.capacity.toNat := by
  have hhead := h.head
  have htail := h.tail_le
  have hfits := h.fits
  have hcases := h.tail_cases
  rw [Ringbuffer.full, decide_eq_true_iff, ← UInt32.toNat_inj, h.next_toNat htail]
  by_cases hlast : r.tail.toNat = r.capacity.toNat
  · rw [hlast, Nat.mod_self]
    omega
  · rw [Nat.mod_eq_of_lt (by omega)]
    omega

/-- A full ring takes nothing. -/
theorem push_full (h : Holds r items) (hlen : items.length = r.capacity.toNat) (c : UInt8) :
    r.push c = some (false, r) := by
  rw [Ringbuffer.push, if_pos (h.full_iff.mpr hlen)]

/-- A byte is appended. The index of the write is inside the storage. -/
theorem push_room (h : Holds r items) (hlen : items.length < r.capacity.toNat) (c : UInt8) :
    ∃ r', r.push c = some (true, r') ∧ Holds r' (items ++ [c]) ∧ r'.capacity = r.capacity := by
  have hfull : ¬ r.full = true := mt h.full_iff.mp (Nat.ne_of_lt hlen)
  have hindex : r.tail.toNat < r.size := Nat.lt_of_le_of_lt h.tail_le h.size
  refine ⟨{ r with buf := Function.update r.buf r.tail.toNat c, tail := r.next r.tail }, ?_,
    ⟨h.capacity, h.size, h.head, ?_, ?_, ?_⟩, rfl⟩
  · rw [Ringbuffer.push, if_neg hfull, if_pos hindex]
  · rw [h.next_toNat h.tail_le, h.tail, Nat.mod_add_mod, List.length_append, Nat.add_assoc]
    rfl
  · rw [List.length_append]
    exact hlen
  · have hpush := ring_push r.buf r.head.toNat c (Nat.lt_succ_of_lt hlen)
    rw [← h.tail, h.items] at hpush
    rw [List.length_append]
    exact hpush

/-- An empty ring gives nothing. -/
theorem pop_empty (h : Holds r []) : r.pop = some (none, r) := by
  rw [Ringbuffer.pop, if_pos (h.empty_iff.mpr rfl)]

/-- The oldest byte is taken. The index of the read is inside the storage. -/
theorem pop_cons {b : UInt8} (h : Holds r (b :: items)) :
    ∃ r', r.pop = some (some b, r') ∧ Holds r' items ∧ r'.capacity = r.capacity := by
  have hempty : ¬ r.empty = true := mt h.empty_iff.mp (Nat.succ_ne_zero _)
  have hindex : r.head.toNat < r.size := Nat.lt_of_le_of_lt h.head h.size
  have hring := h.items
  rw [List.length_cons, ring_pop, Nat.mod_eq_of_lt (Nat.lt_succ_of_le h.head)] at hring
  obtain ⟨hbyte, hring⟩ := List.cons.inj hring
  have hnext := h.next_toNat h.head
  refine ⟨{ r with head := r.next r.head }, ?_,
    ⟨h.capacity, h.size, ?_, ?_, Nat.le_of_succ_le h.fits, ?_⟩, rfl⟩
  · rw [Ringbuffer.pop, if_neg hempty, if_pos hindex, hbyte]
  · rw [hnext]
    exact Nat.le_of_lt_succ (Nat.mod_lt _ (Nat.succ_pos _))
  · rw [hnext, h.tail, Nat.mod_add_mod, List.length_cons, Nat.add_right_comm, Nat.add_assoc]
  · rw [hnext, ring_mod (Nat.dvd_refl _), hring]

/-- A reset empties the queue. -/
theorem reset (h : Holds r items) : Holds r.reset [] :=
  ⟨h.capacity, h.size, Nat.zero_le _, (Nat.zero_mod _).symm, Nat.zero_le _, rfl⟩

end Holds

/-- At first the queue is empty. -/
theorem holds_init {capacity : UInt32} {size : Nat} (hcap : capacity.toNat < 2 ^ 32 - 1)
    (hsize : capacity.toNat < size) (buf : Nat → UInt8) :
    Holds (ringbufferInit buf size capacity) [] :=
  ⟨hcap, hsize, Nat.zero_le _, (Nat.zero_mod _).symm, Nat.zero_le _, rfl⟩

/-- The buffer replies to a call as the queue does, and holds the queue that the call leaves. -/
theorem step_refines {n : Nat} {q : BoundedQueue UInt8 n} (h : Holds r q.items)
    (hn : r.capacity.toNat = n) (c : Call) :
    ∃ r', r.step c = some ((q.step c).1, r') ∧ Holds r' (q.step c).2.items ∧
      r'.capacity = r.capacity := by
  cases c with
  | push c =>
    rw [Ringbuffer.step, BoundedQueue.step, BoundedQueue.push]
    split
    next hlen =>
      obtain ⟨r', hpush, hholds, hcap⟩ := h.push_room (hn ▸ hlen) c
      exact ⟨r', by rw [hpush]; rfl, hholds, hcap⟩
    next hlen =>
      have hfull : q.items.length = r.capacity.toNat := by
        have := h.fits
        omega
      exact ⟨r, by rw [h.push_full hfull]; rfl, h, rfl⟩
  | pop =>
    obtain ⟨items, fits⟩ := q
    cases items with
    | nil => exact ⟨r, by rw [Ringbuffer.step, h.pop_empty]; rfl, h, rfl⟩
    | cons b items =>
      obtain ⟨r', hpop, hholds, hcap⟩ := h.pop_cons
      exact ⟨r', by rw [Ringbuffer.step, hpop]; rfl, hholds, hcap⟩
  | reset => exact ⟨r.reset, rfl, h.reset, rfl⟩

/-- The same for a sequence of calls. -/
theorem run_refines {n : Nat} {q : BoundedQueue UInt8 n} (h : Holds r q.items)
    (hn : r.capacity.toNat = n) (cs : List Call) :
    ∃ r', r.run cs = some ((q.run cs).1, r') ∧ Holds r' (q.run cs).2.items ∧
      r'.capacity = r.capacity := by
  induction cs generalizing r q with
  | nil => exact ⟨r, rfl, h, rfl⟩
  | cons c cs ih =>
    obtain ⟨r1, hstep, hholds, hcap⟩ := step_refines h hn c
    obtain ⟨r2, hrun, hholds', hcap'⟩ := ih hholds (hcap ▸ hn)
    refine ⟨r2, ?_, hholds', hcap'.trans hcap⟩
    rw [Ringbuffer.run, hstep]
    change (r1.run cs).bind _ = _
    rw [hrun]
    rfl

/-- Whatever calls are made, the buffer replies as a queue of `capacity` bytes, and its fill level,
its free bytes and its tests are those of the queue. No call accesses a byte outside of the
storage. -/
theorem ringbuffer_refines_queue (buf : Nat → UInt8) (size : Nat) (capacity : UInt32)
    (hcap : capacity.toNat < 2 ^ 32 - 1) (hsize : size = capacity.toNat + 1) (cs : List Call) :
    ∃ r, (ringbufferInit buf size capacity).run cs =
        some (((BoundedQueue.empty (n := capacity.toNat)).run cs).1, r) ∧
      r.capacity = capacity ∧
      r.used.toNat = ((BoundedQueue.empty (n := capacity.toNat)).run cs).2.items.length ∧
      r.used.toNat + r.free.toNat = capacity.toNat ∧
      (r.empty = true ↔ r.used = 0) ∧ (r.full = true ↔ r.used = capacity) := by
  have hsize' : capacity.toNat < size := by omega
  obtain ⟨r, hrun, hholds, hsame⟩ := run_refines (q := .empty) (holds_init hcap hsize' buf) rfl cs
  have hcapacity : r.capacity = capacity := hsame
  refine ⟨r, hrun, hcapacity, hholds.used_toNat, hcapacity ▸ hholds.used_add_free, ?_, ?_⟩
  · rw [hholds.empty_iff, ← UInt32.toNat_inj, hholds.used_toNat]
    rfl
  · rw [hholds.full_iff, ← UInt32.toNat_inj, hholds.used_toNat, hcapacity]

/-- A buffer for one byte. -/
theorem ringbuffer_refines_queue_one :
    ∃ r, (ringbufferInit (fun _ ↦ 0) 2 1).run [.push 7, .push 8, .pop, .push 9] =
        some ([.pushed true, .pushed false, .popped (some 7), .pushed true], r) ∧
      r.capacity = 1 ∧ r.used.toNat = 1 ∧ r.used.toNat + r.free.toNat = 1 ∧
      (r.empty = true ↔ r.used = 0) ∧ (r.full = true ↔ r.used = 1) :=
  ringbuffer_refines_queue (fun _ ↦ 0) 2 1 (by decide) rfl [.push 7, .push 8, .pop, .push 9]

end Xv6K210.Driver
