import Xv6K210.Vm.Unmap

/-!
# Unmapping as subtraction

The mappings of a process, seen page by page: `munmap` takes exactly the pages of
its range out of this map and their entries out of both tables, or changes nothing.
-/

namespace Xv6K210.Vm

open Xv6K210.Base Prog Function

variable {P O F : Type}

/-- What the mappings of a process tell about a page. -/
def view (vmas : Fin nvma → Option (Vma O)) (n : Nat) : Option (PageView O) :=
  ((mmapVmaFind vmas (n * pgsize)).bind vmas).map (·.page n)

/-- A page is in the view when a mapping contains it. -/
theorem Layout.view_eq_some {sz : Nat} {vmas : Fin nvma → Option (Vma O)} (h : Layout sz vmas)
    {n : Nat} {x : PageView O} : view vmas n = some x ↔
      ∃ i v, vmas i = some v ∧ v.contains (n * pgsize) ∧ v.page n = x := by
  unfold view
  cases hfind : mmapVmaFind vmas (n * pgsize) with
  | none =>
    have hnone := List.find?_eq_none.mp hfind
    refine ⟨nofun, ?_⟩
    rintro ⟨i, v, hv, hc, _⟩
    have hany := hnone i (List.mem_finRange i)
    rw [hv] at hany
    exact absurd hc hany
  | some j =>
    obtain ⟨v, hv, hvc⟩ := exists_of_mmapVmaFind hfind
    simp only [Option.bind_some, hv, Option.map_some, Option.some.injEq]
    constructor
    · exact fun hx ↦ ⟨j, v, hv, hvc, hx⟩
    · rintro ⟨i, v', hv', hc, hx⟩
      have hij := h.unique hv' hv hc hvc
      subst hij
      rw [hv] at hv'
      cases hv'
      exact hx

private theorem Layout.isSome_view {sz : Nat} {vmas : Fin nvma → Option (Vma O)}
    (h : Layout sz vmas)
    {n : Nat} : (view vmas n).isSome ↔ ∃ i v, vmas i = some v ∧ v.contains (n * pgsize) := by
  rw [Option.isSome_iff_exists]
  simp only [h.view_eq_some]
  constructor
  · rintro ⟨x, i, v, hv, hc, _⟩
    exact ⟨i, v, hv, hc⟩
  · rintro ⟨i, v, hv, hc⟩
    exact ⟨_, i, v, hv, hc, rfl⟩

/-- What is left of the mappings tells the same about the pages that are left. -/
theorem Pieces.view {sz sz' : Nat} {vmas vmas' : Fin nvma → Option (Vma O)} {ns : List Nat}
    (h : Pieces vmas vmas' ns) (hlay : Layout sz vmas) (hlay' : Layout sz' vmas') (n : Nat) :
    view vmas' n = if n ∈ ns then none else view vmas n := by
  ext x
  split_ifs with hn
  · rw [hlay'.view_eq_some]
    refine ⟨?_, nofun⟩
    rintro ⟨i, v, hv, hc, _⟩
    exact absurd hn (h.whole i v n hv hc).1
  · rw [hlay'.view_eq_some, hlay.view_eq_some]
    constructor
    · rintro ⟨i, v, hv, hc, hx⟩
      obtain ⟨_, i', v', hv', hc', hx'⟩ := h.whole i v n hv hc
      exact ⟨i', v', hv', hc', hx'.trans hx⟩
    · rintro ⟨i, v, hv, hc, hx⟩
      obtain ⟨i', v', hv', hc', hx'⟩ := h.keep i v n hv hc hn
      exact ⟨i', v', hv', hc', hx'.trans hx⟩

/-! ### Cuts -/

section

variable {addr fin : Nat} {vmas vmas' : Fin nvma → Option (Vma O)}
  {split split' : Option (Fin nvma)} {i : Fin nvma} {ns : List Nat}

/-- A cut takes mapped pages of the range. -/
theorem Cut.mem_range (h : Cut addr fin vmas split i vmas' split' ns) {sz : Nat}
    (hlay : Layout sz vmas) (haddr : addr % pgsize = 0) {n : Nat} (hn : n ∈ ns) :
    (addr ≤ n * pgsize ∧ n * pgsize < fin) ∧ (view vmas n).isSome := by
  have hmapped : ∀ v, vmas i = some v → v.contains (n * pgsize) → (view vmas n).isSome :=
    fun v hv hc ↦ hlay.isSome_view.mpr ⟨i, v, hv, hc⟩
  cases h with
  | skip _ => exact absurd hn List.not_mem_nil
  | whole v hv ho hle hle' =>
    rw [Vm.mem_pages (hlay.ok i v hv).start_mod] at hn
    exact ⟨by omega, hmapped v hv (Vma.contains_iff.mpr hn)⟩
  | head v hv ho hle hend =>
    rw [Vm.mem_pages (hlay.ok i v hv).start_mod] at hn
    exact ⟨by omega, hmapped v hv (Vma.contains_iff.mpr (by omega))⟩
  | tail v hv ho hstart hle =>
    rw [Vm.mem_pages haddr] at hn
    exact ⟨by omega, hmapped v hv (Vma.contains_iff.mpr (by omega))⟩
  | middle v j hv ho hstart hend hj =>
    rw [Vm.mem_pages haddr] at hn
    exact ⟨by omega, hmapped v hv (Vma.contains_iff.mpr (by omega))⟩

/-- The mapping of a slot, if any, is outside the range. -/
def Clear (addr fin : Nat) (vmas : Fin nvma → Option (Vma O)) (k : Fin nvma) : Prop :=
  ∀ v, vmas k = some v → ¬ v.overlaps addr fin

private theorem not_overlaps_above {v : Vma O} : ¬ (v.above fin).overlaps addr fin := by
  rw [Vma.overlaps_iff]
  exact fun h ↦ absurd h.2 (lt_irrefl fin)

private theorem not_overlaps_below {v : Vma O} : ¬ (v.below addr).overlaps addr fin := by
  rw [Vma.overlaps_iff]
  exact fun h ↦ absurd h.1 (lt_irrefl addr)

/-- A slot that is cleared or split off stays clear. -/
theorem Clear.put (k : Fin nvma) (x : Option (Vma O))
    (hx : ∀ v, x = some v → ¬ v.overlaps addr fin) {j : Fin nvma}
    (h : j = k ∨ Clear addr fin vmas j) : Clear addr fin (update vmas k x) j := by
  intro v hv
  by_cases hj : j = k
  · rw [hj, update_self] at hv
    exact hx v hv
  · rw [update_of_ne hj] at hv
    exact h.resolve_left hj v hv

/-- After a cut its slot is outside the range, and so are the slots that were. -/
theorem Cut.clear (h : Cut addr fin vmas split i vmas' split' ns) {k : Fin nvma}
    (hk : k = i ∨ Clear addr fin vmas k) : Clear addr fin vmas' k := by
  have habove : ∀ v w : Vma O, some (v.above fin) = some w → ¬ w.overlaps addr fin := by
    rintro v w ⟨⟩
    exact not_overlaps_above
  have hbelow : ∀ v w : Vma O, some (v.below addr) = some w → ¬ w.overlaps addr fin := by
    rintro v w ⟨⟩
    exact not_overlaps_below
  cases h with
  | skip h =>
    rcases hk with rfl | hk
    · exact h
    · exact hk
  | whole v hv ho hle hle' => exact .put i none nofun hk
  | head v hv ho hle hend => exact .put i _ (habove v) hk
  | tail v hv ho hstart hle => exact .put i _ (hbelow v) hk
  | middle v j hv ho hstart hend hj =>
    refine .put i _ (hbelow v) (hk.imp_right fun h ↦ ?_)
    exact .put j _ (habove v) (.inr h)

end

/-! ### The routine -/

variable [DecidableEq P] [DecidableEq O] [DecidableEq F]

/-- What the last loop of `vma_unmap` has done: it took the pages `ns` of the range. -/
structure Taken (p : P) (addr fin : Nat) (w w' : World P O F) (ns : List Nat) : Prop where
  layout : Layout (w'.proc p).sz (w'.proc p).vmas
  slots : Slots p w w' (w'.proc p).vmas ns
  view : ∀ n, view (w'.proc p).vmas n = if n ∈ ns then none else view (w.proc p).vmas n
  range : ∀ n ∈ ns, (addr ≤ n * pgsize ∧ n * pgsize < fin) ∧ (Vm.view (w.proc p).vmas n).isSome

/-- The last loop of `vma_unmap`, slot by slot. -/
theorem unmapSlots_taken {p : P} {addr fin : Nat} (haddr : addr % pgsize = 0)
    (hfin : fin % pgsize = 0) (hlt : addr < fin) (is : List (Fin nvma)) (w : World P O F)
    (split : Option (Fin nvma)) (hsplit : ∀ j, split = some j → (w.proc p).vmas j = none)
    (h : Layout (w.proc p).sz (w.proc p).vmas) :
    Ensures (unmapSlots p addr fin split is) w fun _ w' ↦
      (∃ ns, Taken p addr fin w w' ns) ∧
        ∀ k, k ∈ is ∨ Clear addr fin (w.proc p).vmas k → Clear addr fin (w'.proc p).vmas k := by
  induction is generalizing w split with
  | nil =>
    rw [unmapSlots, ensures_pure]
    refine ⟨⟨[], h, .refl p w, fun n ↦ (if_neg List.not_mem_nil).symm, (by rintro _ ⟨⟩)⟩, ?_⟩
    exact fun k hk ↦ hk.resolve_left List.not_mem_nil
  | cons i is ih =>
    rw [unmapSlots, ensures_bind]
    apply (unmapSlot_spec w p addr fin split i).mono
    rintro split' w1 ⟨vmas, ns, hcut, hs⟩
    have hvmas := hs.vmas
    subst hvmas
    obtain ⟨hlay, hpieces, hsplit'⟩ := h.cut haddr hfin hlt hsplit hcut
    have hsz : (w1.proc p).sz = (w.proc p).sz := by
      rw [hs.proc, update_self]
    rw [← hsz] at hlay
    apply (ih w1 split' hsplit' hlay).mono
    rintro _ w2 ⟨⟨ms, ht⟩, hclear⟩
    have hview := hpieces.view h hlay
    refine ⟨⟨ns ++ ms, ht.layout, hs.trans ht.slots, fun n ↦ ?_, fun n hn ↦ ?_⟩, fun k hk ↦ ?_⟩
    · rw [ht.view, hview]
      by_cases hm : n ∈ ms
      · rw [if_pos hm, if_pos (List.mem_append_right ns hm)]
      · by_cases hn : n ∈ ns
        · rw [if_neg hm, if_pos hn, if_pos (List.mem_append_left ms hn)]
        · rw [if_neg hm, if_neg hn, if_neg fun h ↦ (List.mem_append.mp h).elim hn hm]
    · rcases List.mem_append.mp hn with hn | hn
      · exact hcut.mem_range h haddr hn
      · obtain ⟨hrange, hmapped⟩ := ht.range n hn
        refine ⟨hrange, ?_⟩
        rw [hview] at hmapped
        split_ifs at hmapped
        · cases hmapped
        · exact hmapped
    · rcases hk with hk | hk
      · rcases List.mem_cons.mp hk with rfl | hk
        · exact hclear k (.inr (hcut.clear (.inl rfl)))
        · exact hclear k (.inl hk)
      · exact hclear k (.inr (hcut.clear (.inr hk)))

/-- The pages of `[addr, PGROUNDUP(addr + length))`. -/
def InRange (addr length n : Nat) : Prop :=
  addr ≤ n * pgsize ∧ n * pgsize < pgroundup (addr + length)

instance (addr length n : Nat) : Decidable (InRange addr length n) :=
  inferInstanceAs (Decidable (_ ∧ _))

/-- Exact subtraction or nothing. When the result is success, the mappings lose the pages of the
range, and both tables the entries of the pages that were mapped there; otherwise the mappings,
all tables and all objects are as before. -/
def Subtracts (p : P) (addr length : Nat) (w : World P O F) (r : Bool) (w' : World P O F) : Prop :=
  (r = true →
    (∀ n, view (w'.proc p).vmas n =
      if InRange addr length n then none else view (w.proc p).vmas n) ∧
    (∀ t, t = .user p ∨ t = .kern p → ∀ n, w'.leaf t n =
      if InRange addr length n ∧ (view (w.proc p).vmas n).isSome then none else w.leaf t n) ∧
    Layout (w'.proc p).sz (w'.proc p).vmas) ∧
  (r = false → w'.proc = w.proc ∧ w'.pt = w.pt ∧ w'.obj = w.obj)

/-- `munmap` subtracts its range from the mappings, or does nothing. -/
theorem munmap_exact {w : World P O F} {p : P} (h : Layout (w.proc p).sz (w.proc p).vmas)
    (addr length : Nat) :
    Ensures (vmaUnmap p addr length) w fun r w' ↦ Subtracts p addr length w r w' := by
  unfold vmaUnmap
  simp only [ensures_bind, ensures_get, ensures_ite, ensures_pure]
  have hsame : Subtracts p addr length w false w := ⟨(by rintro ⟨⟩), fun _ ↦ ⟨rfl, rfl, rfl⟩⟩
  refine ⟨fun _ ↦ hsame, fun hargs ↦ ⟨fun _ ↦ hsame, fun _ ↦ ⟨fun _ ↦ hsame, fun _ ↦
    ⟨fun _ ↦ hsame, fun _ ↦ ⟨fun _ ↦ hsame, fun _ ↦ ?_⟩⟩⟩⟩⟩
  have haddr : addr % pgsize = 0 := by
    by_contra hne
    exact hargs (.inr (.inl hne))
  have hlt : addr < pgroundup (addr + length) := by
    have hround := le_pgroundup (addr + length)
    omega
  apply (writebackSlots_quiet w p _ _).mono
  intro r w1 h1
  cases r with
  | some i =>
    rw [ensures_pure]
    exact ⟨(by rintro ⟨⟩), fun _ ↦ ⟨h1.core.proc, h1.pt, h1.obj⟩⟩
  | none =>
    simp only [ensures_bind, ensures_pure]
    have hproc := h1.core.proc
    have hlay : Layout (w1.proc p).sz (w1.proc p).vmas := by
      rw [hproc]
      exact h
    refine (unmapSlots_taken haddr (pgroundup_mod _) hlt slots w1 _ (fun j hj ↦ ?_) hlay).mono ?_
    · rw [hproc]
      split_ifs at hj
      exact vmaFindFree_none hj
    · rintro _ w2 ⟨⟨ns, ht⟩, hclear⟩
      have hnone : ∀ n, InRange addr length n → view (w2.proc p).vmas n = none := by
        intro n hn
        by_contra hne
        obtain ⟨i, v, hv, hc⟩ := ht.layout.isSome_view.mp (Option.isSome_iff_ne_none.mpr hne)
        rw [Vma.contains_iff] at hc
        refine hclear i (.inl (List.mem_finRange i)) v hv (Vma.overlaps_iff.mpr ?_)
        exact ⟨hn.1.trans_lt hc.2, hc.1.trans_lt hn.2⟩
      -- the pages taken are the mapped pages of the range
      have hns : ∀ n, n ∈ ns ↔ InRange addr length n ∧ (view (w.proc p).vmas n).isSome := by
        intro n
        rw [← hproc]
        refine ⟨ht.range n, fun hmem ↦ ?_⟩
        obtain ⟨hin, hmapped⟩ := hmem
        by_contra hn
        have hview := ht.view n
        rw [if_neg hn, hnone n hin] at hview
        rw [← hview] at hmapped
        cases hmapped
      refine ⟨fun _ ↦ ⟨fun n ↦ ?_, fun t hu n ↦ ?_, ht.layout⟩, (by rintro ⟨⟩)⟩
      · rw [← hproc]
        split_ifs with hin
        · exact hnone n hin
        · rw [ht.view, if_neg fun hn ↦ hin (ht.range n hn).1]
      · rw [ht.slots.leaf, h1.leaf]
        have hdrop : w.leaf.unmap p ns t n = if n ∈ ns then none else w.leaf t n := by
          rcases hu with rfl | rfl
          · rw [Leaves.unmap_user]
          · rw [Leaves.unmap_kern]
        rw [hdrop]
        simp only [hns]

/-- A mapping of three pages. -/
def threePages : Vma Nat := .fresh .anon 0x40000000 12288 3 0x22 (some 0) 0

/-- A process with this mapping only. -/
def mapped : World Unit Nat Nat :=
  { World.boot fun _ ↦ [] with
    obj := fun _ ↦ some ⟨1, .anon, none, none, none⟩
    proc := fun _ ↦
      { (Proc.none : Proc Unit Nat Nat) with
        vmas := update (fun _ ↦ none) ⟨0, by decide⟩ (some threePages) } }

/-- The page in the middle is unmapped: the page above it keeps its offset. -/
theorem munmap_exact_middle : ∃ w : World Unit Nat Nat,
    vmaUnmap () 0x40001000 4096 mapped = .ok (true, w) ∧
      view (w.proc ()).vmas 0x40001 = none ∧
      (view (w.proc ()).vmas 0x40002).map (·.offset) = some 8192 := by
  have hok : threePages.Ok :=
    ⟨by decide, by decide, by decide, by decide, by decide, by decide⟩
  have hlay : Layout (mapped.proc ()).sz (mapped.proc ()).vmas :=
    (Layout.empty 0).put hok (by decide) nofun
  have hreturns : returns (vmaUnmap () 0x40001000 4096) mapped (fun r _ ↦ r) = true := by
    decide +kernel
  obtain ⟨r, w, hrun, hr⟩ := exists_of_returns hreturns
  cases hr
  have hview := (((munmap_exact hlay 0x40001000 4096).of_ok true w hrun).1 rfl).1
  refine ⟨w, hrun, ?_, ?_⟩
  · rw [hview]
    decide +kernel
  · rw [hview]
    decide +kernel

end Xv6K210.Vm
