import Mathlib.Data.Fintype.Card
import Mathlib.Data.List.FinRange
import Xv6K210.Vm.Memory

/-!
# The slots of a process

Source `kernel/vm/mmap/mmap.c`. How the table of mappings is
searched. `vma_find_address` goes down from `MMAP_TOP`, below one mapping a round; a mapping that
was passed is never met again, so its loop ends.
-/

namespace Xv6K210.Vm

variable {O : Type}

/-! ### Looking up -/

/-- The slots in order. -/
def slots : List (Fin nvma) := List.finRange nvma

/-- `vma_find_free`. -/
def vmaFindFree (vmas : Fin nvma → Option (Vma O)) : Option (Fin nvma) :=
  slots.find? fun i ↦ (vmas i).isNone

/-- The mapping contains the address. -/
def Vma.contains (v : Vma O) (va : Nat) : Bool := v.start ≤ va && va < v.fin

/-- `mmap_vma_find`. -/
def mmapVmaFind (vmas : Fin nvma → Option (Vma O)) (va : Nat) : Option (Fin nvma) :=
  slots.find? fun i ↦ (vmas i).any (·.contains va)

/-- `vma_overlaps`. -/
def Vma.overlaps (v : Vma O) (start fin : Nat) : Bool := start < v.fin && v.start < fin

/-- A round of the inner loop of `vma_find_address`. -/
def higherOverlap (vmas : Fin nvma → Option (Vma O)) (start top : Nat) (best : Option Nat)
    (i : Fin nvma) : Option Nat :=
  match vmas i with
  | some v => if v.overlaps start top && best.all (· < v.start) then some v.start else best
  | none => best

/-- The inner loop of `vma_find_address`: the start of the highest mapping that overlaps. -/
def highestOverlap (vmas : Fin nvma → Option (Vma O)) (start top : Nat) : Option Nat :=
  slots.foldl (higherOverlap vmas start top) none

/-- A round of `vma_heap_limit`. -/
def lowerLimit (vmas : Fin nvma → Option (Vma O)) (limit : Nat) (i : Fin nvma) : Nat :=
  match vmas i with
  | some v => if v.start < limit then v.start else limit
  | none => limit

/-- `vma_heap_limit`. -/
def vmaHeapLimit (vmas : Fin nvma → Option (Vma O)) : Nat :=
  slots.foldl (lowerLimit vmas) mmapTop

/-! ### The search for an address -/

/-- Two ranges overlap. -/
theorem Vma.overlaps_iff {v : Vma O} {start fin : Nat} :
    v.overlaps start fin ↔ start < v.fin ∧ v.start < fin := by
  simp [Vma.overlaps]

/-- The inner loop of `vma_find_address` misses no mapping that overlaps. -/
theorem foldl_higherOverlap_none {vmas : Fin nvma → Option (Vma O)} {start top : Nat}
    {is : List (Fin nvma)} {best : Option Nat}
    (h : is.foldl (higherOverlap vmas start top) best = none) :
    best = none ∧ ∀ i ∈ is, ∀ v, vmas i = some v → ¬ v.overlaps start top := by
  induction is generalizing best with
  | nil => exact ⟨h, by simp⟩
  | cons i is ih =>
    rw [List.foldl_cons] at h
    obtain ⟨hbest, hrest⟩ := ih h
    unfold higherOverlap at hbest
    cases hv : vmas i with
    | none =>
      rw [hv] at hbest
      refine ⟨hbest, ?_⟩
      intro j hj v hvj
      rcases List.mem_cons.mp hj with rfl | hj
      · rw [hv] at hvj
        cases hvj
      · exact hrest j hj v hvj
    | some v =>
      rw [hv] at hbest
      dsimp only at hbest
      split_ifs at hbest with hc
      refine ⟨hbest, ?_⟩
      intro j hj v' hvj
      rcases List.mem_cons.mp hj with rfl | hj
      · rw [hv] at hvj
        cases hvj
        rw [hbest] at hc
        simpa using hc
      · exact hrest j hj v' hvj

/-- The inner loop of `vma_find_address` yields the start of a mapping that overlaps. -/
theorem foldl_higherOverlap_some {vmas : Fin nvma → Option (Vma O)} {start top s : Nat}
    {is : List (Fin nvma)} {best : Option Nat}
    (h : is.foldl (higherOverlap vmas start top) best = some s) :
    best = some s ∨ ∃ i v, vmas i = some v ∧ v.overlaps start top ∧ s = v.start := by
  induction is generalizing best with
  | nil => exact .inl h
  | cons i is ih =>
    rw [List.foldl_cons] at h
    rcases ih h with hbest | hfound
    · unfold higherOverlap at hbest
      cases hv : vmas i with
      | none =>
        rw [hv] at hbest
        exact .inl hbest
      | some v =>
        rw [hv] at hbest
        dsimp only at hbest
        split_ifs at hbest with hc
        · cases hbest
          rw [Bool.and_eq_true] at hc
          exact .inr ⟨i, v, hv, hc.1, rfl⟩
        · exact .inl hbest
    · exact .inr hfound

/-- Nothing overlaps below the hole. -/
theorem highestOverlap_none {vmas : Fin nvma → Option (Vma O)} {start top : Nat}
    (h : highestOverlap vmas start top = none) {i : Fin nvma} {v : Vma O} (hv : vmas i = some v) :
    ¬ v.overlaps start top :=
  (foldl_higherOverlap_none h).2 i (List.mem_finRange i) v hv

/-- The start of a mapping that overlaps. -/
theorem highestOverlap_some {vmas : Fin nvma → Option (Vma O)} {start top s : Nat}
    (h : highestOverlap vmas start top = some s) :
    ∃ i v, vmas i = some v ∧ v.overlaps start top ∧ s = v.start := by
  rcases foldl_higherOverlap_some h with h | h
  · cases h
  · exact h

/-- The loop of `vma_find_address`, for a number of rounds; `none` when it would go on after
them, `some 0` when there is no room. No mapping begins below `bottom`, so `top - bottom` does not
wrap. -/
def findAddressLoop (vmas : Fin nvma → Option (Vma O)) (bottom length : Nat) :
    Nat → Nat → Option Nat
  | 0, _ => none
  | rounds + 1, top =>
    if length ≤ top - bottom then
      match highestOverlap vmas (top - length) top with
      | none => some (top - length)
      | some start => findAddressLoop vmas bottom length rounds start
    else some 0

variable {vmas : Fin nvma → Option (Vma O)}

/-- The slots whose mappings the search may still meet below `top`. -/
def ahead (vmas : Fin nvma → Option (Vma O)) (top : Nat) : Finset (Fin nvma) :=
  Finset.univ.filter fun i ↦ (vmas i).any (·.start < top)

private theorem mem_ahead {top : Nat} {i : Fin nvma} :
    i ∈ ahead vmas top ↔ ∃ v, vmas i = some v ∧ v.start < top := by
  simp only [ahead, Finset.mem_filter, Finset.mem_univ, true_and, Option.any_eq_true,
    decide_eq_true_eq]

/-- A mapping is passed for good. -/
theorem card_ahead_lt {top : Nat} {i : Fin nvma} {v : Vma O} (hv : vmas i = some v)
    (hlt : v.start < top) : (ahead vmas v.start).card < (ahead vmas top).card := by
  apply Finset.card_lt_card
  rw [Finset.ssubset_iff_of_subset]
  · refine ⟨i, mem_ahead.mpr ⟨v, hv, hlt⟩, fun hi ↦ ?_⟩
    obtain ⟨v', hv', hlt'⟩ := mem_ahead.mp hi
    rw [hv] at hv'
    cases hv'
    exact lt_irrefl _ hlt'
  · intro j hj
    obtain ⟨v', hv', hlt'⟩ := mem_ahead.mp hj
    exact mem_ahead.mpr ⟨v', hv', hlt'.trans hlt⟩

private theorem card_ahead_le (vmas : Fin nvma → Option (Vma O)) (top : Nat) :
    (ahead vmas top).card ≤ nvma :=
  (Finset.card_le_univ _).trans_eq (Fintype.card_fin nvma)

/-- The loop ends when every mapping ahead had a round and one is left. -/
theorem findAddressLoop_ends {bottom length : Nat} (rounds top : Nat)
    (h : (ahead vmas top).card < rounds) :
    (findAddressLoop vmas bottom length rounds top).isSome := by
  induction rounds generalizing top with
  | zero => exact absurd h (Nat.not_lt_zero _)
  | succ rounds ih =>
    rw [findAddressLoop]
    split_ifs with hroom
    swap
    · rfl
    cases hover : highestOverlap vmas (top - length) top with
    | none => rfl
    | some start =>
      obtain ⟨i, v, hv, ho, rfl⟩ := highestOverlap_some hover
      have hlt := card_ahead_lt hv (Vma.overlaps_iff.mp ho).2
      exact ih v.start (by omega)

/-- A loop that has ended does the same with more rounds. -/
theorem findAddressLoop_more {bottom length a : Nat} (rounds more top : Nat)
    (h : findAddressLoop vmas bottom length rounds top = some a) :
    findAddressLoop vmas bottom length (rounds + more) top = some a := by
  induction rounds generalizing top with
  | zero => cases h
  | succ rounds ih =>
    rw [Nat.add_right_comm, findAddressLoop]
    rw [findAddressLoop] at h
    split_ifs at h ⊢ with hroom
    swap
    · exact h
    cases hover : highestOverlap vmas (top - length) top with
    | none =>
      rw [hover] at h
      exact h
    | some start =>
      rw [hover] at h
      exact ih start h

/-- `NVMA + 1` rounds are enough for `vma_find_address`. -/
theorem findAddressLoop_isSome (vmas : Fin nvma → Option (Vma O)) (bottom length : Nat) :
    (findAddressLoop vmas bottom length (nvma + 1) mmapTop).isSome :=
  findAddressLoop_ends _ _ (Nat.lt_succ_of_le (card_ahead_le vmas mmapTop))

/-- `vma_find_address`; 0 when there is no room. -/
def vmaFindAddress (sz : Nat) (vmas : Fin nvma → Option (Vma O)) (length : Nat) : Nat :=
  if mmapTop < pgroundup sz then 0
  else (findAddressLoop vmas (pgroundup sz) length (nvma + 1) mmapTop).get
    (findAddressLoop_isSome vmas (pgroundup sz) length)

/-- From a heap below `MMAP_TOP` the loop ends, with the result of `vma_find_address`. -/
theorem findAddressLoop_eq {sz : Nat} (h : pgroundup sz ≤ mmapTop) (length : Nat) :
    findAddressLoop vmas (pgroundup sz) length (nvma + 1) mmapTop =
      some (vmaFindAddress sz vmas length) := by
  rw [vmaFindAddress, if_neg (Nat.not_lt.mpr h), Option.some_get]

end Xv6K210.Vm
