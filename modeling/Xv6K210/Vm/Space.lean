import Xv6K210.Vm.Tables

/-!
# Address spaces

A process has text and heap below its size, mappings between the heap and the
stack, and the stack. `Layout` says how the mappings lie. `Space` adds what the page tables
hold: a user entry lies in one of these areas, a kernel entry for user memory is a copy of the
user entry, and a mapping without a fault operation is resident. This module has the
definitions, and what single changes of entries do to them.
-/

namespace Xv6K210.Vm

open Xv6K210.Base Prog Function

/-! ### Pages -/

/-- The pages of a range. -/
theorem mem_pages {start fin n : Nat} (hstart : start % pgsize = 0) :
    n ∈ pages start fin ↔ start ≤ n * pgsize ∧ n * pgsize < fin := by
  unfold pages
  rw [List.mem_range'_1]
  unfold pgsize at *
  omega

/-- Rounding up gives a page. -/
theorem pgroundup_mod (a : Nat) : pgroundup a % pgsize = 0 := by
  unfold pgroundup
  exact Nat.mul_mod_left _ _

/-- Rounding up never lowers. -/
theorem le_pgroundup (a : Nat) : a ≤ pgroundup a := by
  unfold pgroundup pgsize
  omega

/-- Rounding up adds less than a page. -/
theorem pgroundup_lt (a : Nat) : pgroundup a < a + pgsize := by
  unfold pgroundup pgsize
  omega

/-- Rounding up stays below an aligned bound. -/
theorem pgroundup_le {a b : Nat} (hb : b % pgsize = 0) (h : a ≤ b) : pgroundup a ≤ b := by
  unfold pgroundup pgsize at *
  omega

/-- Rounding up is monotone. -/
theorem pgroundup_mono {a b : Nat} (h : a ≤ b) : pgroundup a ≤ pgroundup b :=
  pgroundup_le (pgroundup_mod b) (h.trans (le_pgroundup b))

/-- The top of the mappings is aligned. -/
theorem mmapTop_mod : mmapTop % pgsize = 0 := by decide

variable {P O F : Type}

/-! ### The layout of the mappings -/

/-- A mapping is page aligned, not empty and ends below the stack; its last page holds its last
valid byte. -/
structure Vma.Ok (v : Vma O) : Prop where
  start_mod : v.start % pgsize = 0
  fin_mod : v.fin % pgsize = 0
  start_lt : v.start < v.fin
  fin_le : v.fin ≤ mmapTop
  valid_le : v.validEnd ≤ v.fin
  valid_gt : v.fin < v.validEnd + pgsize

/-- The mappings lie above the heap and apart from each other. -/
structure Layout (sz : Nat) (vmas : Fin nvma → Option (Vma O)) : Prop where
  ok : ∀ i v, vmas i = some v → v.Ok
  above : ∀ i v, vmas i = some v → pgroundup sz ≤ v.start
  disjoint : ∀ i j v v', vmas i = some v → vmas j = some v' → i ≠ j →
    v.fin ≤ v'.start ∨ v'.fin ≤ v.start

/-- No mapping. -/
theorem Layout.empty (sz : Nat) : Layout sz (fun _ ↦ none : Fin nvma → Option (Vma O)) := by
  constructor
  · intro i v h
    cases h
  · intro i v h
    cases h
  · intro i j v v' h
    cases h

/-- An address in a mapping. -/
theorem Vma.contains_iff {v : Vma O} {va : Nat} : v.contains va ↔ v.start ≤ va ∧ va < v.fin := by
  simp [Vma.contains]

/-- The pages of a mapping. -/
theorem Vma.Ok.mem_pages {v : Vma O} (h : v.Ok) {n : Nat} :
    n ∈ pages v.start v.fin ↔ v.contains (n * pgsize) := by
  rw [Vm.mem_pages h.start_mod, Vma.contains_iff]

/-- No two mappings share an address. -/
theorem Layout.unique {sz : Nat} {vmas : Fin nvma → Option (Vma O)} (h : Layout sz vmas)
    {i j : Fin nvma} {v v' : Vma O} {va : Nat} (hi : vmas i = some v) (hj : vmas j = some v')
    (hv : v.contains va) (hv' : v'.contains va) : i = j := by
  by_contra hij
  rw [Vma.contains_iff] at hv hv'
  have := h.disjoint i j v v' hi hj hij
  omega

/-- The slot that `mmap_vma_find` finds holds a mapping that contains the address. -/
theorem exists_of_mmapVmaFind {vmas : Fin nvma → Option (Vma O)} {va : Nat} {i : Fin nvma}
    (h : mmapVmaFind vmas va = some i) : ∃ v, vmas i = some v ∧ v.contains va := by
  have hany := List.find?_some h
  cases hi : vmas i with
  | none =>
    rw [hi] at hany
    cases hany
  | some v =>
    rw [hi] at hany
    exact ⟨v, rfl, hany⟩

/-- A slot whose mapping goes keeps the layout. -/
theorem Layout.erase {sz : Nat} {vmas : Fin nvma → Option (Vma O)} (h : Layout sz vmas)
    (i : Fin nvma) : Layout sz (update vmas i none) := by
  constructor
  · intro j v hj
    rw [update_apply] at hj
    split_ifs at hj
    exact h.ok j v hj
  · intro j v hj
    rw [update_apply] at hj
    split_ifs at hj
    exact h.above j v hj
  · intro j k v v' hj hk hjk
    rw [update_apply] at hj hk
    split_ifs at hj hk
    exact h.disjoint j k v v' hj hk hjk

/-- A new mapping in a slot that is apart from all others keeps the layout. -/
theorem Layout.put {sz : Nat} {vmas : Fin nvma → Option (Vma O)} (h : Layout sz vmas)
    {i : Fin nvma} {v : Vma O} (hok : v.Ok) (habove : pgroundup sz ≤ v.start)
    (hfree : ∀ j v', j ≠ i → vmas j = some v' → v.fin ≤ v'.start ∨ v'.fin ≤ v.start) :
    Layout sz (update vmas i (some v)) := by
  constructor
  · intro j x hj
    rw [update_apply] at hj
    split_ifs at hj
    · cases hj
      exact hok
    · exact h.ok j x hj
  · intro j x hj
    rw [update_apply] at hj
    split_ifs at hj
    · cases hj
      exact habove
    · exact h.above j x hj
  · intro j k x y hj hk hjk
    rw [update_apply] at hj hk
    split_ifs at hj hk with hji hki hki
    · exact absurd (hji.trans hki.symm) hjk
    · cases hj
      exact hfree k y hki hk
    · cases hk
      exact (hfree j x hji hj).symm
    · exact h.disjoint j k x y hj hk hjk

/-- A part of a mapping in the place of the mapping keeps the layout. -/
theorem Layout.shrink {sz : Nat} {vmas : Fin nvma → Option (Vma O)} (h : Layout sz vmas)
    {i : Fin nvma} {v v' : Vma O} (hi : vmas i = some v) (hok : v'.Ok)
    (hstart : v.start ≤ v'.start) (hfin : v'.fin ≤ v.fin) :
    Layout sz (update vmas i (some v')) := by
  apply h.put hok
  · exact (h.above i v hi).trans hstart
  · intro j x hji hj
    have := h.disjoint i j v x hi hj (Ne.symm hji)
    omega

private theorem lowerLimit_le (vmas : Fin nvma → Option (Vma O)) (limit : Nat) (i : Fin nvma) :
    lowerLimit vmas limit i ≤ limit ∧
      ∀ v, vmas i = some v → lowerLimit vmas limit i ≤ v.start := by
  unfold lowerLimit
  cases hv : vmas i with
  | none => simp
  | some v =>
    dsimp only
    split_ifs with hlt
    · refine ⟨hlt.le, ?_⟩
      rintro v' ⟨⟩
      exact le_rfl
    · refine ⟨le_rfl, ?_⟩
      rintro v' ⟨⟩
      exact Nat.le_of_not_lt hlt

/-- The loop of `vma_heap_limit` ends below every mapping that it visits. -/
theorem foldl_lowerLimit_le (vmas : Fin nvma → Option (Vma O)) (is : List (Fin nvma))
    (limit : Nat) : is.foldl (lowerLimit vmas) limit ≤ limit ∧
      ∀ i ∈ is, ∀ v, vmas i = some v → is.foldl (lowerLimit vmas) limit ≤ v.start := by
  induction is generalizing limit with
  | nil => simp
  | cons j is ih =>
    rw [List.foldl_cons]
    have hj := lowerLimit_le vmas limit j
    have hrest := ih (lowerLimit vmas limit j)
    refine ⟨hrest.1.trans hj.1, ?_⟩
    intro i hi v hv
    rcases List.mem_cons.mp hi with rfl | hi
    · exact hrest.1.trans (hj.2 v hv)
    · exact hrest.2 i hi v hv

/-- Below every mapping there is room for the heap. -/
theorem Layout.le_heapLimit {sz sz' : Nat} {vmas : Fin nvma → Option (Vma O)}
    (h : Layout sz vmas) (hsz : sz' ≤ vmaHeapLimit vmas) : Layout sz' vmas := by
  refine ⟨h.ok, ?_, h.disjoint⟩
  intro i v hi
  apply pgroundup_le (h.ok i v hi).start_mod
  exact hsz.trans ((foldl_lowerLimit_le vmas slots mmapTop).2 i (List.mem_finRange i) v hi)

/-- A smaller heap keeps the layout. -/
theorem Layout.mono {sz sz' : Nat} {vmas : Fin nvma → Option (Vma O)} (h : Layout sz vmas)
    (hsz : sz' ≤ sz) : Layout sz' vmas :=
  ⟨h.ok, fun i v hi ↦ (pgroundup_mono hsz).trans (h.above i v hi), h.disjoint⟩

/-! ### The entries of a process -/

/-- The page belongs to user memory. -/
def UserPage (n : Nat) : Prop := n * pgsize < maxuva

/-- Pages below `MAXUVA` are user pages. -/
theorem userPage_of_mem_pages {start fin n : Nat} (hstart : start % pgsize = 0)
    (hfin : fin ≤ maxuva) (hn : n ∈ pages start fin) : UserPage n :=
  ((mem_pages hstart).mp hn).2.trans_le hfin

/-- The page lies in an area of the process. -/
def Covered (q : Proc P O F) (n : Nat) : Prop :=
  n * pgsize < pgroundup q.sz ∨ (userStackStart ≤ n * pgsize ∧ n * pgsize < userStackTop) ∨
    ∃ i v, q.vmas i = some v ∧ v.contains (n * pgsize)

/-- The user entries lie in the areas of the process. -/
def Foot (q : Proc P O F) (u : Nat → Option Pte) : Prop :=
  ∀ n e, UserPage n → u n = some e → Covered q n

/-- The kernel entries for user memory are copies of the user entries. -/
def Mirror (u k : Nat → Option Pte) : Prop :=
  ∀ n e, UserPage n → k n = some e → ∃ e', u n = some e' ∧ e = e'.mirror

/-- A mapping without a fault operation has all its pages. -/
def Resident (vmas : Fin nvma → Option (Vma O)) (u : Nat → Option Pte) : Prop :=
  ∀ i v, vmas i = some v → v.ops = false → ∀ n, v.contains (n * pgsize) → (u n).isSome

/-- What holds of the memory of a process between its calls. -/
structure Space (q : Proc P O F) (u k : Nat → Option Pte) : Prop where
  layout : Layout q.sz q.vmas
  foot : Foot q u
  mirror : Mirror u k
  resident : Resident q.vmas u

/-- A new entry, in both tables. -/
theorem Mirror.put {u k : Nat → Option Pte} (h : Mirror u k) (n : Nat) (e : Pte) :
    Mirror (update u n (some e)) (update k n (some e.mirror)) := by
  intro m x hm hx
  rw [update_apply] at hx ⊢
  split_ifs at hx ⊢ with hmn
  · cases hx
    exact ⟨e, rfl, rfl⟩
  · exact h m x hm hx

/-- Entries go from both tables. -/
theorem Mirror.drop {u k : Nat → Option Pte} (h : Mirror u k) (ns : List Nat) :
    Mirror (fun n ↦ if n ∈ ns then none else u n) (fun n ↦ if n ∈ ns then none else k n) := by
  intro m x hm hx
  dsimp only at hx ⊢
  split_ifs at hx ⊢
  exact h m x hm hx

/-- Entries are copied. -/
theorem Mirror.copy {u k : Nat → Option Pte} (h : Mirror u k) (ns : List Nat) :
    Mirror u (fun n ↦ if n ∈ ns then ((u n).map Pte.mirror).or (k n) else k n) := by
  intro m x hm hx
  dsimp only at hx
  split_ifs at hx
  · cases hu : u m with
    | none =>
      rw [hu] at hx
      obtain ⟨e', he', _⟩ := h m x hm hx
      rw [hu] at he'
      cases he'
    | some e =>
      rw [hu] at hx
      cases hx
      exact ⟨e, rfl, rfl⟩
  · exact h m x hm hx

/-- Only the kernel entries of some pages differ, and these pages are copied. -/
theorem Mirror.of_copy {u k : Nat → Option Pte} (ns : List Nat)
    (hout : ∀ n e, UserPage n → n ∉ ns → k n = some e → ∃ e', u n = some e' ∧ e = e'.mirror)
    (hin : ∀ n, UserPage n → n ∈ ns → (k n).isSome → (u n).isSome) :
    Mirror u (fun n ↦ if n ∈ ns then ((u n).map Pte.mirror).or (k n) else k n) := by
  intro m x hm hx
  dsimp only at hx
  split_ifs at hx with hns
  · cases hu : u m with
    | none =>
      rw [hu] at hx
      have hk : (k m).isSome := by
        rw [show k m = some x from hx]
        rfl
      have := hin m hm hns hk
      rw [hu] at this
      cases this
    | some e =>
      rw [hu] at hx
      cases hx
      exact ⟨e, rfl, rfl⟩
  · exact hout m x hm hns hx

end Xv6K210.Vm
