import Mathlib.Data.List.Basic
import Mathlib.Tactic.Common

/-!
# Byte-addressed memory

Library `Base`. A memory is a total function from addresses to bytes; a range is read
with `load` and overwritten with `store`. The laws say how consecutive, equal and
disjoint ranges compose, so that a transfer cut into pieces can be compared with the
transfer of the whole range.
-/

namespace Xv6K210.Base

/-- Bytes by address. -/
abbrev ByteMem := Nat → UInt8

/-- The `n` bytes that start at address `a`. -/
def load (m : ByteMem) (a n : Nat) : List UInt8 := (List.range n).map fun i ↦ m (a + i)

/-- Overwrite the bytes that start at address `a`. -/
def store (m : ByteMem) (a : Nat) (bs : List UInt8) : ByteMem := fun x ↦
  if a ≤ x then (bs[x - a]?).getD (m x) else m x

/-- A load has the requested length. -/
@[simp] theorem length_load (m : ByteMem) (a n : Nat) : (load m a n).length = n := by
  simp [load]

/-- Position `i` of a load is the byte `i` addresses further on. -/
theorem getElem?_load (m : ByteMem) (a n i : Nat) :
    (load m a n)[i]? = if i < n then some (m (a + i)) else none := by
  unfold load
  by_cases h : i < n
  · simp [h]
  · simp [h]

/-- Nothing is loaded from an empty range. -/
@[simp] theorem load_zero (m : ByteMem) (a : Nat) : load m a 0 = [] := rfl

/-- A load of two consecutive ranges is the concatenation of their loads. -/
theorem load_add (m : ByteMem) (a n k : Nat) :
    load m a (n + k) = load m a n ++ load m (a + n) k := by
  simp only [load, List.range_add, List.map_append, List.map_map]
  congr 1
  apply List.map_congr_left
  intro i _
  simp [Nat.add_assoc]

/-- Two memories that agree on a range load the same bytes from it. -/
theorem load_congr {m m' : ByteMem} {a n : Nat} (h : ∀ i < n, m (a + i) = m' (a + i)) :
    load m a n = load m' a n := by
  apply List.map_congr_left
  intro i hi
  exact h i (List.mem_range.mp hi)

/-- Storing nothing changes nothing. -/
@[simp] theorem store_nil (m : ByteMem) (a : Nat) : store m a [] = m := by
  funext x
  simp [store]

/-- A store reads back the stored byte inside its range. -/
theorem store_apply_mem (m : ByteMem) (a : Nat) (bs : List UInt8) (i : Nat)
    (h : i < bs.length) : store m a bs (a + i) = bs[i] := by
  simp [store, h]

/-- A store leaves every address below its range. -/
theorem store_apply_lt (m : ByteMem) (a : Nat) (bs : List UInt8) (x : Nat) (h : x < a) :
    store m a bs x = m x := by
  simp [store, Nat.not_le.mpr h]

/-- A store leaves every address above its range. -/
theorem store_apply_ge (m : ByteMem) (a : Nat) (bs : List UInt8) (x : Nat)
    (h : a + bs.length ≤ x) : store m a bs x = m x := by
  have ha : a ≤ x := by omega
  have hl : bs.length ≤ x - a := by omega
  simp [store, ha, List.getElem?_eq_none hl]

/-- A store leaves every address outside its range. -/
theorem store_apply_of_not_mem (m : ByteMem) (a : Nat) (bs : List UInt8) (x : Nat)
    (h : x < a ∨ a + bs.length ≤ x) : store m a bs x = m x := by
  rcases h with h | h
  · exact store_apply_lt m a bs x h
  · exact store_apply_ge m a bs x h

/-- Storing a concatenation stores its parts one after the other. -/
theorem store_append (m : ByteMem) (a : Nat) (xs ys : List UInt8) :
    store m a (xs ++ ys) = store (store m a xs) (a + xs.length) ys := by
  funext x
  by_cases h : x < a + xs.length
  · rw [store_apply_lt _ (a + xs.length) _ _ h]
    by_cases ha : a ≤ x
    · have hl : x - a < xs.length := by omega
      simp [store, ha, List.getElem?_append_left hl]
    · simp [store, ha]
  · have ha : a ≤ x := by omega
    have hl : xs.length ≤ x - a := by omega
    have hm : store m a xs x = m x := store_apply_ge m a xs x (by omega)
    have he : x - (a + xs.length) = x - a - xs.length := by omega
    rw [store, if_pos ha, List.getElem?_append_right hl, store, if_pos (by omega), hm, he]

/-- Loading what was just stored gives it back. -/
theorem load_store_self (m : ByteMem) (a : Nat) (bs : List UInt8) :
    load (store m a bs) a bs.length = bs := by
  apply List.ext_getElem
  · simp
  · intro i hi hj
    simp only [load, List.getElem_map, List.getElem_range]
    exact store_apply_mem m a bs i hj

/-- A load is not affected by a store to a disjoint range. -/
theorem load_store_of_disjoint (m : ByteMem) (a n b : Nat) (bs : List UInt8)
    (h : a + n ≤ b ∨ b + bs.length ≤ a) : load (store m b bs) a n = load m a n := by
  apply load_congr
  intro i hi
  apply store_apply_of_not_mem
  omega

/-! ### Several pieces -/

/-- Store bytes at their addresses, one piece after the other. -/
def storeAll (m : ByteMem) : List (Nat × List UInt8) → ByteMem
  | [] => m
  | x :: xs => storeAll (store m x.1 x.2) xs

/-- Stores are made one list after the other. -/
theorem storeAll_append (m : ByteMem) (xs ys : List (Nat × List UInt8)) :
    storeAll m (xs ++ ys) = storeAll (storeAll m xs) ys := by
  induction xs generalizing m with
  | nil => rfl
  | cons x xs ih => exact ih _

/-- Two pieces take different addresses. -/
def Apart (x y : Nat × List UInt8) : Prop :=
  x.1 + x.2.length ≤ y.1 ∨ y.1 + y.2.length ≤ x.1

/-- A load is not affected by pieces apart from it. -/
theorem load_storeAll_of_apart (m : ByteMem) {x : Nat × List UInt8} {xs : List (Nat × List UInt8)}
    (h : ∀ y ∈ xs, Apart x y) :
    load (storeAll m xs) x.1 x.2.length = load m x.1 x.2.length := by
  induction xs generalizing m with
  | nil => rfl
  | cons y ys ih =>
    rw [storeAll, ih _ fun z hz ↦ h z (List.mem_cons_of_mem y hz)]
    exact load_store_of_disjoint m _ _ _ _ (h y List.mem_cons_self)

/-- Every one of some pieces apart from each other is read back. -/
theorem load_storeAll (m : ByteMem) {xs : List (Nat × List UInt8)} (h : xs.Pairwise Apart)
    {x : Nat × List UInt8} (hx : x ∈ xs) : load (storeAll m xs) x.1 x.2.length = x.2 := by
  induction xs generalizing m with
  | nil => cases hx
  | cons y ys ih =>
    rw [List.pairwise_cons] at h
    rw [storeAll]
    rcases List.mem_cons.mp hx with rfl | hx
    · rw [load_storeAll_of_apart _ h.1, load_store_self]
    · exact ih _ h.2 hx

/-! ### Fills -/

/-- Set `n` bytes from address `a` on to one value. -/
def fill (m : ByteMem) (a n : Nat) (b : UInt8) : ByteMem := fun x ↦
  if a ≤ x ∧ x < a + n then b else m x

/-- A filled address holds the fill value. -/
theorem fill_apply_mem (m : ByteMem) {a n x : Nat} (b : UInt8) (h : a ≤ x ∧ x < a + n) :
    fill m a n b x = b := if_pos h

/-- A fill leaves every address outside its range. -/
theorem fill_apply_of_not_mem (m : ByteMem) {a n x : Nat} (b : UInt8)
    (h : x < a ∨ a + n ≤ x) : fill m a n b x = m x := if_neg (by omega)

end Xv6K210.Base
