import Xv6K210.Vm.Effects

/-!
# Removing mappings

What `vma_unmap` and `vma_destroy_all` do to the slots of a process and to its
entries. A slot is cut in one of four ways; a cut keeps the layout, and unmaps exactly the pages
that it takes from the mapping.
-/

namespace Xv6K210.Vm

open Xv6K210.Base Prog Function

variable {P O F : Type}

/-! ### Routines on objects and files -/

/-- The processes are the same, and the entries are now `L`. -/
structure Tab (w w' : World P O F) (L : Leaves P) : Prop where
  proc : w'.proc = w.proc
  there : ∀ t, w'.there t = w.there t
  leaf : w'.leaf = L

/-- No effect. -/
theorem Tab.refl (w : World P O F) : Tab w w w.leaf := ⟨rfl, fun _ ↦ rfl, rfl⟩

/-- Effects compose. -/
theorem Tab.trans {w w' w'' : World P O F} {L L' : Leaves P} (h : Tab w w' L)
    (h' : Tab w' w'' L') : Tab w w'' L' :=
  ⟨h'.proc.trans h.proc, fun t ↦ (h'.there t).trans (h.there t), h'.leaf⟩

/-- An effect with its records. -/
theorem Eff.tab {w w' : World P O F} {L : Leaves P} (h : Eff w w' L) : Tab w w' L :=
  ⟨h.core.proc, h.core.there, h.leaf⟩

/-- A quiet step has no effect. -/
theorem Quiet.tab {w w' : World P O F} (h : Quiet w w') : Tab w w' w.leaf := h.eff.tab

/-- Routines that leave the processes and the entries alone, in sequence. -/
theorem ensures_tab_bind {α β : Type} {x : Kern P O F α} {f : α → Kern P O F β}
    {w : World P O F} (hx : Ensures x w fun _ w' ↦ Tab w w' w.leaf)
    (hf : ∀ a w', Ensures (f a) w' fun _ w'' ↦ Tab w' w'' w'.leaf) :
    Ensures (x >>= f) w fun _ w' ↦ Tab w w' w.leaf := by
  apply hx.bind
  intro a w' h
  apply (hf a w').mono
  intro _ w'' h'
  rw [← h.leaf]
  exact h.trans h'

section

variable [DecidableEq F]

/-- `filedup` has no effect on the tables. -/
theorem filedup_tab (w : World P O F) (f : F) :
    Ensures (filedup f) w fun _ w' ↦ Tab w w' w.leaf := by
  unfold filedup
  simp only [ensures_bind, ensures_get, ensures_ite, ensures_set]
  exact ⟨fun _ ↦ ensures_halt, fun _ ↦ ⟨rfl, fun _ ↦ rfl, rfl⟩⟩

/-- `fileclose` has no effect on the tables. -/
theorem fileclose_tab (w : World P O F) (f : F) :
    Ensures (fileclose f) w fun _ w' ↦ Tab w w' w.leaf := by
  unfold fileclose
  simp only [ensures_bind, ensures_get, ensures_ite, ensures_set]
  refine ⟨fun _ ↦ ensures_halt, fun _ ↦ ⟨fun _ ↦ ?_, fun _ ↦ ?_⟩⟩
  · exact ⟨rfl, fun _ ↦ rfl, rfl⟩
  · exact ⟨rfl, fun _ ↦ rfl, rfl⟩

private theorem mmapObjectDestroy_tab (w : World P O F) (x : MmapObject F) :
    Ensures (mmapObjectDestroy x) w fun _ w' ↦ Tab w w' w.leaf := by
  have hfree : ∀ (pas : List Nat) (w : World P O F),
      Ensures (forEach kfreePage pas) w fun _ w' ↦ Tab w w' w.leaf := by
    intro pas w
    exact (kfreePages_quiet w pas).mono fun _ _ h ↦ h.tab
  have hclose : Ensures (forEach fileclose x.file.toList) w fun _ w' ↦ Tab w w' w.leaf := by
    cases x.file with
    | none =>
      rw [Option.toList_none, forEach, ensures_pure]
      exact .refl w
    | some f =>
      simp only [Option.toList_some, forEach, ensures_bind, ensures_pure]
      exact fileclose_tab w f
  unfold mmapObjectDestroy
  apply ensures_tab_bind hclose
  intro _ w1
  apply ensures_tab_bind (hfree _ w1)
  intro _ w2
  exact hfree _ w2

end

section

variable [DecidableEq O]

/-- A write to an object. -/
theorem setObj_tab (w : World P O F) (o : O) (x : Option (MmapObject F)) :
    Ensures (setObj o x) w fun _ w' ↦ Tab w w' w.leaf := by
  unfold setObj
  rw [ensures_modify]
  exact ⟨rfl, fun _ ↦ rfl, rfl⟩

/-- A reference to an object. -/
theorem mmapObjectGet_tab (w : World P O F) (o : Option O) :
    Ensures (mmapObjectGet o) w fun _ w' ↦ Tab w w' w.leaf := by
  unfold mmapObjectGet
  rw [ensures_bind, ensures_get]
  split
  · rw [ensures_ite]
    exact ⟨fun _ ↦ ensures_halt, fun _ ↦ setObj_tab w _ _⟩
  · exact ensures_halt

variable [DecidableEq F]

/-- The end of a reference. -/
theorem mmapObjectPut_tab (w : World P O F) (o : O) :
    Ensures (mmapObjectPut o) w fun _ w' ↦ Tab w w' w.leaf := by
  unfold mmapObjectPut
  rw [ensures_bind, ensures_get]
  split
  · exact ensures_halt
  · simp only [ensures_ite]
    refine ⟨fun _ ↦ ensures_halt, fun _ ↦ ⟨fun _ ↦ ?_, fun _ ↦ setObj_tab w _ _⟩⟩
    apply ensures_tab_bind (mmapObjectDestroy_tab w _)
    intro _ w1
    exact setObj_tab w1 _ _

/-- The end of a reference, if any. -/
theorem putIfAny_tab (w : World P O F) (o : Option O) :
    Ensures (putIfAny o) w fun _ w' ↦ Tab w w' w.leaf := by
  cases o with
  | none =>
    rw [putIfAny, ensures_pure]
    exact .refl w
  | some o => exact mmapObjectPut_tab w o

end

/-! ### Cuts -/

/-- What is left of a mapping above an address. -/
def Vma.above (v : Vma O) (va : Nat) : Vma O :=
  { v with start := va, offset := v.offset + (va - v.start) }

/-- What is left of a mapping below an address. -/
def Vma.below (v : Vma O) (va : Nat) : Vma O :=
  { v with fin := va, validEnd := min v.validEnd va }

/-- A round of `vma_unmap` on the slot `i`: the slots and `split_slot` afterwards, and the pages
that it unmaps. -/
inductive Cut (addr fin : Nat) (vmas : Fin nvma → Option (Vma O)) (split : Option (Fin nvma))
    (i : Fin nvma) : (Fin nvma → Option (Vma O)) → Option (Fin nvma) → List Nat → Prop where
  | skip (h : ∀ v, vmas i = some v → ¬ v.overlaps addr fin) :
    Cut addr fin vmas split i vmas split []
  | whole (v : Vma O) (hv : vmas i = some v) (ho : v.overlaps addr fin) (h : addr ≤ v.start)
      (h' : v.fin ≤ fin) :
      Cut addr fin vmas split i (update vmas i none) split (pages v.start v.fin)
  | head (v : Vma O) (hv : vmas i = some v) (ho : v.overlaps addr fin) (h : addr ≤ v.start)
      (h' : fin < v.fin) :
      Cut addr fin vmas split i (update vmas i (some (v.above fin))) split
        (pages v.start fin)
  | tail (v : Vma O) (hv : vmas i = some v) (ho : v.overlaps addr fin) (h : v.start < addr)
      (h' : v.fin ≤ fin) :
      Cut addr fin vmas split i (update vmas i (some (v.below addr))) split
        (pages addr v.fin)
  | middle (v : Vma O) (j : Fin nvma) (hv : vmas i = some v) (ho : v.overlaps addr fin)
      (h : v.start < addr) (h' : fin < v.fin) (hj : split = some j) :
      Cut addr fin vmas split i
        (update (update vmas j (some (v.above fin))) i (some (v.below addr)))
        none (pages addr fin)

/-! ### Cuts and address spaces -/

/-- The upper part of a mapping. -/
theorem Vma.Ok.above {v : Vma O} (h : v.Ok) {va : Nat} (hmod : va % pgsize = 0) (hlt : va < v.fin) :
    (v.above va).Ok :=
  ⟨hmod, h.fin_mod, hlt, h.fin_le, h.valid_le, h.valid_gt⟩

/-- The lower part of a mapping is valid to its end. -/
theorem Vma.Ok.below {v : Vma O} (h : v.Ok) {va : Nat} (hmod : va % pgsize = 0)
    (hgt : v.start < va) (hle : va ≤ v.fin) : (v.below va).Ok := by
  have h1 := h.valid_gt
  have h2 := h.fin_mod
  refine ⟨h.start_mod, hmod, hgt, hle.trans h.fin_le, min_le_right _ _, ?_⟩
  change va < min v.validEnd va + pgsize
  have hpos : 0 < pgsize := by decide
  rcases hle.lt_or_eq with hlt | rfl
  · have : va + pgsize ≤ v.fin := by
      unfold pgsize at *
      omega
    omega
  · omega

/-- What a mapping tells about one of its pages: the object, the offset of the page in it, and
how many bytes of the page are valid. -/
structure PageView (O : Type) where
  type : VmaType
  object : Option O
  offset : Nat
  prot : Nat
  flags : Nat
  valid : Nat
  ops : Bool
  deriving DecidableEq

/-- What a mapping tells about a page. -/
def Vma.page (v : Vma O) (n : Nat) : PageView O :=
  ⟨v.type, v.object, v.backing n, v.prot, v.flags, v.validBytes n, v.ops⟩

/-- The pages of the upper part are as before. -/
theorem Vma.page_above {v : Vma O} {va n : Nat} (hva : v.start ≤ va) (hn : va ≤ n * pgsize) :
    (v.above va).page n = v.page n := by
  have hoff : (v.above va).backing n = v.backing n := by
    unfold Vma.backing
    change v.offset + (va - v.start) + (n * pgsize - va) = _
    omega
  unfold Vma.page
  rw [hoff]
  rfl

/-- The pages of the lower part are as before. -/
theorem Vma.page_below {v : Vma O} {va n : Nat} (hva : va % pgsize = 0) (hn : n * pgsize < va) :
    (v.below va).page n = v.page n := by
  have hvalid : (v.below va).validBytes n = v.validBytes n := by
    unfold Vma.validBytes
    change (if min v.validEnd va < n * pgsize + pgsize then min v.validEnd va - n * pgsize
      else pgsize) = _
    have hle : n * pgsize + pgsize ≤ va := by
      unfold pgsize at *
      omega
    by_cases hlt : v.validEnd < n * pgsize + pgsize
    · rw [if_pos hlt, if_pos (by omega), min_eq_left (by omega)]
    · rw [if_neg hlt, if_neg (by omega)]
  unfold Vma.page
  rw [hvalid]
  rfl

/-- The slots `vmas'` hold what is left of the mappings in `vmas` after the pages `ns` went. -/
structure Pieces (vmas vmas' : Fin nvma → Option (Vma O)) (ns : List Nat) : Prop where
  keep : ∀ i v n, vmas i = some v → v.contains (n * pgsize) → n ∉ ns →
    ∃ i' v', vmas' i' = some v' ∧ v'.contains (n * pgsize) ∧ v'.page n = v.page n
  whole : ∀ i v n, vmas' i = some v → v.contains (n * pgsize) →
    n ∉ ns ∧ ∃ i' v', vmas i' = some v' ∧ v'.contains (n * pgsize) ∧ v'.page n = v.page n

/-- Mappings are replaced by parts of them, and the pages in between are unmapped. -/
theorem Space.replace {q : Proc P O F} {u k : Nat → Option Pte} (h : Space q u k)
    {vmas : Fin nvma → Option (Vma O)} {ns : List Nat} (hlay : Layout q.sz vmas)
    (hpieces : Pieces q.vmas vmas ns) :
    Space { q with vmas := vmas } (fun n ↦ if n ∈ ns then none else u n)
      (fun n ↦ if n ∈ ns then none else k n) := by
  refine ⟨hlay, ?_, h.mirror.drop ns, ?_⟩
  · intro n e hn hu
    dsimp only at hu
    split_ifs at hu with hmem
    rcases h.foot n e hn hu with hheap | hstack | ⟨i, v, hv, hc⟩
    · exact .inl hheap
    · exact .inr (.inl hstack)
    · obtain ⟨i', v', hv', hc', _⟩ := hpieces.keep i v n hv hc hmem
      exact .inr (.inr ⟨i', v', hv', hc'⟩)
  · intro i v hv hops n hc
    obtain ⟨hmem, i', v', hv', hc', hpage⟩ := hpieces.whole i v n hv hc
    have hops' : v'.ops = v.ops := congrArg PageView.ops hpage
    dsimp only
    rw [if_neg hmem]
    exact h.resident i' v' hv' (hops'.trans hops) n hc'

/-- The mapping `v'` is a part of `v` that has none of the pages `ns`. -/
def Vma.PartOf (v' v : Vma O) (ns : List Nat) : Prop :=
  ∀ n, v'.contains (n * pgsize) → n ∉ ns ∧ v.contains (n * pgsize) ∧ v'.page n = v.page n

private theorem Vma.above_partOf {v : Vma O} {va : Nat} {ns : List Nat} (hva : v.start ≤ va)
    (hns : ∀ n ∈ ns, n * pgsize < va) : (v.above va).PartOf v ns := by
  intro n hc
  rw [Vma.contains_iff] at hc
  have hlow : va ≤ n * pgsize := hc.1
  have hhigh : n * pgsize < v.fin := hc.2
  refine ⟨fun hn ↦ absurd (hns n hn) hlow.not_gt, ?_, Vma.page_above hva hlow⟩
  exact Vma.contains_iff.mpr ⟨hva.trans hlow, hhigh⟩

private theorem Vma.below_partOf {v : Vma O} {va : Nat} {ns : List Nat} (hmod : va % pgsize = 0)
    (hva : va ≤ v.fin) (hns : ∀ n ∈ ns, va ≤ n * pgsize) : (v.below va).PartOf v ns := by
  intro n hc
  rw [Vma.contains_iff] at hc
  have hlow : v.start ≤ n * pgsize := hc.1
  have hhigh : n * pgsize < va := hc.2
  refine ⟨fun hn ↦ absurd (hns n hn) hhigh.not_ge, ?_, Vma.page_below hmod hhigh⟩
  exact Vma.contains_iff.mpr ⟨hlow, hhigh.trans_le hva⟩

section

variable {sz : Nat} {vmas vmas' : Fin nvma → Option (Vma O)} {i j : Fin nvma} {v : Vma O}
  {ns : List Nat}

/-- A mapping gives way to parts that have all its pages but `ns`. -/
private theorem Layout.pieces (h : Layout sz vmas) (hv : vmas i = some v)
    (hns : ∀ n ∈ ns, v.contains (n * pgsize))
    (hsame : ∀ k w, k ≠ i → vmas k = some w → vmas' k = some w)
    (hparts : ∀ k w, vmas' k = some w → k ≠ i ∧ vmas k = some w ∨ w.PartOf v ns)
    (hkeep : ∀ n, v.contains (n * pgsize) → n ∉ ns →
      ∃ k w, vmas' k = some w ∧ w.contains (n * pgsize)) : Pieces vmas vmas' ns := by
  refine ⟨fun k w n hw hc hn ↦ ?_, fun k w n hw hc ↦ ?_⟩
  · by_cases hk : k = i
    · subst hk
      rw [hv] at hw
      cases hw
      obtain ⟨k', w', hw', hc'⟩ := hkeep n hc hn
      rcases hparts k' w' hw' with ⟨hne, hw''⟩ | hpart
      · exact absurd (h.unique hw'' hv hc' hc) hne
      · exact ⟨k', w', hw', hc', (hpart n hc').2.2⟩
    · exact ⟨k, w, hsame k w hk hw, hc, rfl⟩
  · rcases hparts k w hw with ⟨hk, hw'⟩ | hpart
    · exact ⟨fun hn ↦ hk (h.unique hw' hv hc (hns n hn)), k, w, hw', hc, rfl⟩
    · obtain ⟨hn, hc', hpage⟩ := hpart n hc
      exact ⟨hn, i, v, hv, hc', hpage.symm⟩

/-- A mapping gives way to one part in its slot, or to nothing. -/
private theorem Layout.pieces_put (h : Layout sz vmas) (hv : vmas i = some v)
    (hns : ∀ n ∈ ns, v.contains (n * pgsize)) {x : Option (Vma O)}
    (hpart : ∀ w, x = some w → w.PartOf v ns)
    (hkeep : ∀ n, v.contains (n * pgsize) → n ∉ ns → ∃ w, x = some w ∧ w.contains (n * pgsize)) :
    Pieces vmas (update vmas i x) ns := by
  refine h.pieces hv hns (fun k w hk hw ↦ ?_) (fun k w hw ↦ ?_) fun n hc hn ↦ ?_
  · rw [update_of_ne hk, hw]
  · by_cases hk : k = i
    · rw [hk, update_self] at hw
      exact .inr (hpart w hw)
    · rw [update_of_ne hk] at hw
      exact .inl ⟨hk, hw⟩
  · obtain ⟨w, hw, hc'⟩ := hkeep n hc hn
    exact ⟨i, w, by rw [update_self, hw], hc'⟩

private theorem empty_ne (hv : vmas i = some v) (hj : vmas j = none) : j ≠ i := by
  rintro rfl
  rw [hj] at hv
  cases hv

/-- The lower part of a mapping keeps its slot, and the upper part gets another. -/
private theorem Layout.split (h : Layout sz vmas) (hv : vmas i = some v) (hj : vmas j = none)
    {addr fin : Nat} (haddr : addr % pgsize = 0) (hfin : fin % pgsize = 0) (hlt : addr < fin)
    (hstart : v.start < addr) (hend : fin < v.fin) :
    Layout sz (update (update vmas j (some (v.above fin))) i (some (v.below addr))) ∧
      Pieces vmas (update (update vmas j (some (v.above fin))) i (some (v.below addr)))
        (pages addr fin) := by
  have hji := empty_ne hv hj
  have hok := h.ok i v hv
  have hmem : ∀ n, n ∈ pages addr fin ↔ addr ≤ n * pgsize ∧ n * pgsize < fin :=
    fun n ↦ mem_pages haddr
  have hupper : v.start ≤ fin := hstart.le.trans hlt.le
  have hlower : addr ≤ v.fin := hlt.le.trans hend.le
  constructor
  -- the lower part takes the place of the mapping, then the upper part is added
  · rw [update_comm hji]
    have hbelow := h.shrink hv (hok.below haddr hstart hlower) le_rfl hlower
    apply hbelow.put (hok.above hfin hend) ((h.above i v hv).trans hupper)
    intro k w hk hw
    rw [update_apply] at hw
    split_ifs at hw with hki
    · cases hw
      exact .inr hlt.le
    · have hd := h.disjoint i k v w hv hw (Ne.symm hki)
      have hlow : v.start ≤ (v.above fin).start := hupper
      have hhigh : (v.above fin).fin = v.fin := rfl
      omega
  · refine h.pieces hv (fun n hn ↦ ?_) (fun k w hk hw ↦ ?_) (fun k w hw ↦ ?_) fun n hc hn ↦ ?_
    · rw [hmem] at hn
      exact Vma.contains_iff.mpr (by omega)
    · rw [update_of_ne hk, update_of_ne, hw]
      exact (empty_ne hw hj).symm
    · by_cases hk : k = i
      · rw [hk, update_self] at hw
        cases hw
        exact .inr (Vma.below_partOf haddr hlower fun n hn ↦ ((hmem n).mp hn).1)
      · rw [update_of_ne hk, update_apply] at hw
        split_ifs at hw
        · cases hw
          exact .inr (Vma.above_partOf hupper fun n hn ↦ ((hmem n).mp hn).2)
        · exact .inl ⟨hk, hw⟩
    · rw [Vma.contains_iff] at hc
      rw [hmem] at hn
      by_cases hlow : n * pgsize < addr
      · exact ⟨i, _, update_self .., Vma.contains_iff.mpr ⟨hc.1, hlow⟩⟩
      · refine ⟨j, v.above fin, ?_, Vma.contains_iff.mpr ⟨?_, hc.2⟩⟩
        · rw [update_of_ne hji, update_self]
        · change fin ≤ n * pgsize
          omega

end

/-- A cut keeps the layout, and leaves the pages that it does not take as they were. -/
theorem Layout.cut {sz : Nat} {vmas0 : Fin nvma → Option (Vma O)} (h : Layout sz vmas0)
    {addr fin : Nat} (haddr : addr % pgsize = 0) (hfin : fin % pgsize = 0) (hlt : addr < fin)
    {split split' : Option (Fin nvma)} {i : Fin nvma} {vmas : Fin nvma → Option (Vma O)}
    {ns : List Nat} (hsplit : ∀ j, split = some j → vmas0 j = none)
    (hcut : Cut addr fin vmas0 split i vmas split' ns) :
    Layout sz vmas ∧ Pieces vmas0 vmas ns ∧ ∀ j, split' = some j → vmas j = none := by
  have hfree : ∀ {v : Vma O} (x : Option (Vma O)), vmas0 i = some v →
      ∀ j, split = some j → update vmas0 i x j = none := fun x hv j hj ↦ by
    rw [update_of_ne (empty_ne hv (hsplit j hj)), hsplit j hj]
  cases hcut with
  | skip _ =>
    refine ⟨h, ⟨fun i v n hv hc _ ↦ ⟨i, v, hv, hc, rfl⟩, fun i v n hv hc ↦ ?_⟩, hsplit⟩
    exact ⟨List.not_mem_nil, i, v, hv, hc, rfl⟩
  | whole v hv ho hle hle' =>
    have hok := h.ok i v hv
    refine ⟨h.erase i, h.pieces_put hv ?_ (by rintro _ ⟨⟩) ?_, hfree none hv⟩
    · exact fun n hn ↦ hok.mem_pages.mp hn
    · exact fun n hc hn ↦ absurd (hok.mem_pages.mpr hc) hn
  | head v hv ho hle hend =>
    have hok := h.ok i v hv
    rw [Vma.overlaps_iff] at ho
    have hmem : ∀ n, n ∈ pages v.start fin ↔ v.start ≤ n * pgsize ∧ n * pgsize < fin :=
      fun n ↦ mem_pages hok.start_mod
    refine ⟨h.shrink hv (hok.above hfin hend) (by exact ho.2.le) le_rfl,
      h.pieces_put hv (fun n hn ↦ ?_) ?_ fun n hc hn ↦ ?_, hfree _ hv⟩
    · rw [hmem] at hn
      exact Vma.contains_iff.mpr (by omega)
    · rintro w ⟨⟩
      exact Vma.above_partOf ho.2.le fun n hn ↦ ((hmem n).mp hn).2
    · rw [Vma.contains_iff] at hc
      rw [hmem] at hn
      have hlow : fin ≤ n * pgsize := by omega
      exact ⟨_, rfl, Vma.contains_iff.mpr ⟨hlow, hc.2⟩⟩
  | tail v hv ho hstart hle =>
    have hok := h.ok i v hv
    rw [Vma.overlaps_iff] at ho
    have hmem : ∀ n, n ∈ pages addr v.fin ↔ addr ≤ n * pgsize ∧ n * pgsize < v.fin :=
      fun n ↦ mem_pages haddr
    refine ⟨h.shrink hv (hok.below haddr hstart ho.1.le) le_rfl (by exact ho.1.le),
      h.pieces_put hv (fun n hn ↦ ?_) ?_ fun n hc hn ↦ ?_, hfree _ hv⟩
    · rw [hmem] at hn
      exact Vma.contains_iff.mpr (by omega)
    · rintro w ⟨⟩
      exact Vma.below_partOf haddr ho.1.le fun n hn ↦ ((hmem n).mp hn).1
    · rw [Vma.contains_iff] at hc
      rw [hmem] at hn
      have hhigh : n * pgsize < addr := by omega
      exact ⟨_, rfl, Vma.contains_iff.mpr ⟨hc.1, hhigh⟩⟩
  | middle v j hv ho hstart hend hj =>
    obtain ⟨hlay, hpieces⟩ := h.split hv (hsplit j hj) haddr hfin hlt hstart hend
    exact ⟨hlay, hpieces, by rintro _ ⟨⟩⟩

/-- A cut keeps the address space. -/
theorem Space.cut {q : Proc P O F} {u k : Nat → Option Pte} (h : Space q u k) {addr fin : Nat}
    (haddr : addr % pgsize = 0) (hfin : fin % pgsize = 0) (hlt : addr < fin)
    {split split' : Option (Fin nvma)}
    {i : Fin nvma} {vmas : Fin nvma → Option (Vma O)} {ns : List Nat}
    (hsplit : ∀ j, split = some j → q.vmas j = none)
    (hcut : Cut addr fin q.vmas split i vmas split' ns) :
    Space { q with vmas := vmas } (fun n ↦ if n ∈ ns then none else u n)
        (fun n ↦ if n ∈ ns then none else k n) ∧
      ∀ j, split' = some j → vmas j = none := by
  obtain ⟨hlay, hpieces, hsplit'⟩ := h.layout.cut haddr hfin hlt hsplit hcut
  exact ⟨h.replace hlay hpieces, hsplit'⟩

/-! ### The routines -/

variable [DecidableEq P]

/-- The slots of process `p` are now `vmas`, its entries lost the pages `ns`, and nothing else
changed in the processes and the entries. -/
structure Slots (p : P) (w w' : World P O F) (vmas : Fin nvma → Option (Vma O))
    (ns : List Nat) : Prop where
  proc : w'.proc = update w.proc p { w.proc p with vmas := vmas }
  there : ∀ t, w'.there t = w.there t
  leaf : w'.leaf = w.leaf.unmap p ns

/-- A slot is written. -/
theorem setVma_proc (w : World P O F) (p : P) (i : Fin nvma) (v : Option (Vma O)) :
    Ensures (setVma p i v) w fun _ w' ↦
      Slots p w w' (update (w.proc p).vmas i v) [] := by
  unfold setVma
  rw [ensures_modify]
  refine ⟨rfl, fun _ ↦ rfl, ?_⟩
  rw [Leaves.unmap_nil]
  rfl

private theorem Slots.of_tab {p : P} {w w' : World P O F} {ns : List Nat}
    (h : Tab w w' (w.leaf.unmap p ns)) : Slots p w w' (w.proc p).vmas ns := by
  refine ⟨?_, h.there, h.leaf⟩
  rw [h.proc]
  exact (update_eq_self p w.proc).symm

/-- Slot changes compose. -/
theorem Slots.trans {p : P} {w w' w'' : World P O F} {vmas vmas' : Fin nvma → Option (Vma O)}
    {ns ns' : List Nat} (h : Slots p w w' vmas ns) (h' : Slots p w' w'' vmas' ns') :
    Slots p w w'' vmas' (ns ++ ns') := by
  constructor
  · rw [h'.proc, h.proc]
    simp
  · intro t
    rw [h'.there, h.there]
  · rw [h'.leaf, h.leaf, Leaves.unmap_unmap]

/-- The slots afterwards. -/
theorem Slots.vmas {p : P} {w w' : World P O F} {vmas : Fin nvma → Option (Vma O)}
    {ns : List Nat} (h : Slots p w w' vmas ns) : (w'.proc p).vmas = vmas := by
  rw [h.proc]
  simp

/-- A step that keeps the slots. -/
theorem Slots.tab {p : P} {w w' w'' : World P O F} {vmas : Fin nvma → Option (Vma O)}
    {ns : List Nat} (h : Slots p w w' vmas ns) (h' : Tab w' w'' w'.leaf) :
    Slots p w w'' vmas ns := by
  refine ⟨?_, fun t ↦ (h'.there t).trans (h.there t), ?_⟩
  · rw [h'.proc, h.proc]
  · rw [h'.leaf, h.leaf]

/-- A slot is replaced after pages were unmapped. -/
theorem setVma_slots {p : P} {w w1 : World P O F} {vmas : Fin nvma → Option (Vma O)}
    {ns : List Nat} (h : Slots p w w1 vmas ns) (i : Fin nvma) (v : Option (Vma O)) :
    Ensures (setVma p i v) w1 fun _ w' ↦ Slots p w w' (update vmas i v) ns := by
  apply (setVma_proc w1 p i v).mono
  intro _ w2 h2
  have h12 := h.trans h2
  rw [h.vmas, List.append_nil] at h12
  exact h12

variable [DecidableEq O] [DecidableEq F]

/-- A round of `vma_unmap` is a cut. -/
theorem unmapSlot_spec (w : World P O F) (p : P) (addr fin : Nat) (split : Option (Fin nvma))
    (i : Fin nvma) :
    Ensures (unmapSlot p addr fin split i) w fun split' w' ↦
      ∃ vmas ns, Cut addr fin (w.proc p).vmas split i vmas split' ns ∧ Slots p w w' vmas ns := by
  unfold unmapSlot
  rw [ensures_bind, ensures_get]
  have hsame : Slots p w w (w.proc p).vmas [] := by
    apply Slots.of_tab
    rw [Leaves.unmap_nil]
    exact .refl w
  split
  · rename_i hv
    rw [ensures_pure]
    exact ⟨_, _, .skip (by simp [hv]), hsame⟩
  · rename_i v hv
    rw [ensures_ite]
    constructor
    · intro ho
      have ho' := Vma.overlaps_iff.mp ho
      apply (vmaUnmapPages_spec w p _ _).bind
      intro _ w1 h1
      have hs := Slots.of_tab h1.tab
      simp only [ensures_ite, ensures_bind, ensures_pure]
      refine ⟨fun hc ↦ ?_, fun hc ↦ ⟨fun hc' ↦ ?_, fun hc' ↦ ⟨fun hc'' ↦ ?_, fun hc'' ↦ ?_⟩⟩⟩
      · apply (setVma_slots hs i none).mono
        intro _ w2 h2
        apply (putIfAny_tab w2 v.object).mono
        intro _ w3 h3
        rw [hc.1, hc.2] at h2
        exact ⟨_, _, .whole v hv ho (by omega) (by omega), h2.tab h3⟩
      · have hfin : min fin v.fin = fin := by omega
        rw [hc', hfin] at hs
        rw [hfin]
        apply (setVma_slots hs i _).mono
        intro _ w2 h2
        exact ⟨_, _, .head v hv ho (by omega) (by omega), h2⟩
      · have hstart : max addr v.start = addr := by omega
        rw [hstart, hc''] at hs
        rw [hstart]
        apply (setVma_slots hs i _).mono
        intro _ w2 h2
        exact ⟨_, _, .tail v hv ho (by omega) (by omega), h2⟩
      · have hstart : max addr v.start = addr := by omega
        have hfin : min fin v.fin = fin := by omega
        rw [hstart, hfin] at hs
        rw [hstart, hfin]
        cases hsplit : split with
        | none => exact ensures_halt
        | some j =>
          simp only [ensures_bind, ensures_pure]
          apply (setVma_slots hs j _).mono
          intro _ w2 h2
          apply (mmapObjectGet_tab w2 v.object).mono
          intro _ w3 h3
          apply (setVma_slots (h2.tab h3) i _).mono
          intro _ w4 h4
          exact ⟨_, _, .middle v j hv ho (by omega) (by omega) rfl, h4⟩
    · intro ho
      rw [ensures_pure]
      refine ⟨_, _, .skip ?_, hsame⟩
      intro v' hv'
      rw [hv] at hv'
      cases hv'
      exact ho

omit [DecidableEq O] [DecidableEq F] in
/-- No slot changes. -/
theorem Slots.refl (p : P) (w : World P O F) : Slots p w w (w.proc p).vmas [] := by
  apply Slots.of_tab
  rw [Leaves.unmap_nil]
  exact .refl w

/-- Only process `p` changed, in its size, its slots and its two tables. -/
structure Own (p : P) (w w' : World P O F) : Prop where
  proc : ∀ q, q ≠ p → w'.proc q = w.proc q
  mine : w'.proc p = { w.proc p with sz := (w'.proc p).sz, vmas := (w'.proc p).vmas }
  there : ∀ t, w'.there t = w.there t
  leaf : ∀ t, t ≠ .user p → t ≠ .kern p → w'.leaf t = w.leaf t

omit [DecidableEq P] [DecidableEq O] [DecidableEq F] in
/-- Nothing changes. -/
theorem Own.refl (p : P) (w : World P O F) : Own p w w :=
  ⟨fun _ _ ↦ rfl, rfl, fun _ ↦ rfl, fun _ _ _ ↦ rfl⟩

omit [DecidableEq P] [DecidableEq O] [DecidableEq F] in
/-- Own steps compose. -/
theorem Own.trans {p : P} {w w' w'' : World P O F} (h : Own p w w') (h' : Own p w' w'') :
    Own p w w'' := by
  constructor
  · intro q hq
    rw [h'.proc q hq, h.proc q hq]
  · rw [h'.mine, h.mine]
  · intro t
    rw [h'.there, h.there]
  · intro t hu hk
    rw [h'.leaf t hu hk, h.leaf t hu hk]

omit [DecidableEq O] [DecidableEq F] in
/-- A slot change is an own step. -/
theorem Slots.own {p : P} {w w' : World P O F} {vmas : Fin nvma → Option (Vma O)}
    {ns : List Nat} (h : Slots p w w' vmas ns) : Own p w w' := by
  refine ⟨?_, ?_, h.there, ?_⟩
  · intro q hq
    rw [h.proc, update_of_ne hq]
  · rw [h.proc]
    simp
  · intro t hu hk
    rw [h.leaf, Leaves.unmap_ne _ _ _ hu hk]

omit [DecidableEq P] [DecidableEq O] [DecidableEq F] in
/-- An effect on own tables. -/
theorem Tab.own {p : P} {w w' : World P O F} {L : Leaves P} (h : Tab w w' L)
    (hL : ∀ t, t ≠ .user p → t ≠ .kern p → L t = w.leaf t) : Own p w w' := by
  refine ⟨?_, ?_, h.there, ?_⟩
  · intro q _
    rw [h.proc]
  · rw [h.proc]
  · intro t hu hk
    rw [h.leaf, hL t hu hk]

/-- The address space of a process is in order. -/
def SpaceAt (w : World P O F) (p : P) : Prop :=
  Space (w.proc p) (w.leaf (.user p)) (w.leaf (.kern p))

omit [DecidableEq P] [DecidableEq O] [DecidableEq F] in
/-- A space with equal tables. -/
theorem SpaceAt.tab {w w' : World P O F} {p : P} (h : SpaceAt w p) (h' : Tab w w' w.leaf) :
    SpaceAt w' p := by
  unfold SpaceAt
  rw [h'.proc, h'.leaf]
  exact h

omit [DecidableEq P] [DecidableEq O] [DecidableEq F] in
/-- The slot that is found at the start of a mapping is the slot of the mapping. -/
theorem SpaceAt.find {w : World P O F} {p : P} (h : SpaceAt w p) {i j : Fin nvma} {v : Vma O}
    (hi : (w.proc p).vmas i = some v) (hj : mmapVmaFind (w.proc p).vmas v.start = some j) :
    j = i := by
  obtain ⟨x, hx, hc⟩ := exists_of_mmapVmaFind hj
  apply h.layout.unique hx hi hc
  rw [Vma.contains_iff]
  exact ⟨le_rfl, (h.layout.ok i v hi).start_lt⟩

omit [DecidableEq O] [DecidableEq F] in
/-- Slots of a process changed and pages went, and this keeps its address space. -/
theorem SpaceAt.of_slots {w w' : World P O F} {p : P} {vmas : Fin nvma → Option (Vma O)}
    {ns : List Nat} (h' : Slots p w w' vmas ns)
    (h : Space { w.proc p with vmas := vmas } (fun n ↦ if n ∈ ns then none else w.leaf (.user p) n)
      (fun n ↦ if n ∈ ns then none else w.leaf (.kern p) n)) : SpaceAt w' p := by
  unfold SpaceAt
  rw [h'.proc, h'.leaf, update_self, Leaves.unmap_user, Leaves.unmap_kern]
  exact h

/-- The last loop of `vma_unmap` keeps the address space. -/
theorem unmapSlots_spec {p : P} {addr fin : Nat} (haddr : addr % pgsize = 0)
    (hfin : fin % pgsize = 0) (hlt : addr < fin) (is : List (Fin nvma)) (w : World P O F)
    (split : Option (Fin nvma)) (hsplit : ∀ j, split = some j → (w.proc p).vmas j = none)
    (h : SpaceAt w p) :
    Ensures (unmapSlots p addr fin split is) w fun _ w' ↦ Own p w w' ∧ SpaceAt w' p := by
  induction is generalizing w split with
  | nil =>
    rw [unmapSlots, ensures_pure]
    exact ⟨.refl p w, h⟩
  | cons i is ih =>
    rw [unmapSlots, ensures_bind]
    apply (unmapSlot_spec w p addr fin split i).mono
    rintro split' w1 ⟨vmas, ns, hcut, hs⟩
    obtain ⟨hspace, hsplit'⟩ := Space.cut h haddr hfin hlt hsplit hcut
    rw [← hs.vmas] at hsplit'
    apply (ih w1 split' hsplit' (.of_slots hs hspace)).mono
    rintro _ w2 ⟨hown, hspace2⟩
    exact ⟨hs.own.trans hown, hspace2⟩

omit [DecidableEq P] [DecidableEq O] [DecidableEq F] in
/-- A free slot is empty. -/
theorem vmaFindFree_none {vmas : Fin nvma → Option (Vma O)} {i : Fin nvma}
    (h : vmaFindFree vmas = some i) : vmas i = none := by
  have := List.find?_some h
  simpa using this

omit [DecidableEq P] [DecidableEq O] [DecidableEq F] in
private theorem writebackSlot_quiet (w : World P O F) (p : P) (addr fin : Nat) (i : Fin nvma) :
    Ensures (writebackSlot p addr fin i) w fun _ w' ↦ Quiet w w' := by
  unfold writebackSlot
  rw [ensures_bind, ensures_get]
  split
  · rw [ensures_pure]
    exact .refl w
  · rw [ensures_ite, ensures_pure]
    exact ⟨fun _ ↦ mmapFileWritebackRange_quiet w p _ _ _, fun _ ↦ .refl w⟩

omit [DecidableEq P] [DecidableEq O] [DecidableEq F] in
/-- Writing back slots changes no entry. -/
theorem writebackSlots_quiet (w : World P O F) (p : P) (addr fin : Nat) :
    Ensures (stopAt (writebackSlot p addr fin) slots) w fun _ w' ↦ Quiet w w' := by
  refine (ensures_stopAt (fun _ w' ↦ Quiet w w') (fun _ _ w' ↦ Quiet w w') ?_
    (Quiet.refl w)).mono ?_
  · intro i is w1 h1
    apply (writebackSlot_quiet w1 p addr fin i).mono
    intro b w2 h2
    cases b with
    | true => exact h1.trans h2
    | false => exact h1.trans h2
  · intro r w' h
    cases r with
    | none => exact h
    | some i =>
      obtain ⟨_, _, h⟩ := h
      exact h

/-- `vma_unmap` keeps the address space. -/
theorem vmaUnmap_spec {w : World P O F} {p : P} (addr length : Nat) (h : SpaceAt w p) :
    Ensures (vmaUnmap p addr length) w fun _ w' ↦ Own p w w' ∧ SpaceAt w' p := by
  unfold vmaUnmap
  simp only [ensures_bind, ensures_get, ensures_ite, ensures_pure]
  have hsame : Own p w w ∧ SpaceAt w p := ⟨.refl p w, h⟩
  refine ⟨fun _ ↦ hsame, fun hargs ↦ ⟨fun _ ↦ hsame, fun _ ↦ ⟨fun _ ↦ hsame, fun _ ↦
    ⟨fun _ ↦ hsame, fun _ ↦ ⟨fun _ ↦ hsame, fun _ ↦ ?_⟩⟩⟩⟩⟩
  apply (writebackSlots_quiet w p _ _).mono
  intro r w1 h1
  have hown1 : Own p w w1 := h1.tab.own fun _ _ _ ↦ rfl
  have hspace1 := h.tab h1.tab
  cases r with
  | some i =>
    rw [ensures_pure]
    exact ⟨hown1, hspace1⟩
  | none =>
    simp only [ensures_bind, ensures_pure]
    have hlt : addr < pgroundup (addr + length) := by
      have := le_pgroundup (addr + length)
      omega
    have haddr : addr % pgsize = 0 := by
      by_contra hne
      exact hargs (.inr (.inl hne))
    refine (unmapSlots_spec haddr (pgroundup_mod _) hlt slots w1 _ ?_ hspace1).mono ?_
    · intro j hj
      rw [h1.core.proc]
      split_ifs at hj
      exact vmaFindFree_none hj
    · rintro _ w2 ⟨hown, hspace⟩
      exact ⟨hown1.trans hown, hspace⟩

/-! ### Removing all mappings -/

/-- A slot is emptied at the end. -/
theorem destroySlot_spec (w : World P O F) (p : P) (i : Fin nvma) (hu : w.there (.user p))
    (hk : w.there (.kern p)) :
    Ensures (destroySlot p i) w fun _ w' ↦
      Slots p w w' (update (w.proc p).vmas i none)
        (((w.proc p).vmas i).elim [] fun v ↦ pages v.start v.fin) := by
  unfold destroySlot
  rw [ensures_bind, ensures_get]
  cases hv : (w.proc p).vmas i with
  | none =>
    rw [ensures_pure, ← hv, update_eq_self, hv]
    exact .refl p w
  | some v =>
    change (w.pt (.user p)).root.isSome = true at hu
    change (w.pt (.kern p)).root.isSome = true at hk
    simp only [doIf, hu, hk, and_self, if_true, ensures_bind, ensures_pure, Option.elim_some]
    apply (mmapFileWritebackRange_quiet w p v _ _).mono
    intro _ w1 h1
    apply (vmaUnmapPages_spec w1 p _ _).mono
    intro _ w2 h2
    rw [h1.leaf] at h2
    have hs := Slots.of_tab (h1.tab.trans h2.tab)
    apply (putIfAny_tab w2 v.object).mono
    intro _ w3 h3
    exact setVma_slots (hs.tab h3) i none

/-- `vma_destroy_all` empties the slots and unmaps the pages of their mappings. -/
theorem vmaDestroyAll_spec (w : World P O F) (p : P) (hu : w.there (.user p))
    (hk : w.there (.kern p)) :
    Ensures (vmaDestroyAll p) w fun _ w' ↦ ∃ ns, Slots p w w' (fun _ ↦ none) ns ∧
      ∀ n, n ∈ ns ↔ ∃ i v, (w.proc p).vmas i = some v ∧ n ∈ pages v.start v.fin := by
  suffices hrest : ∀ (is : List (Fin nvma)) (w : World P O F), w.there (.user p) →
      w.there (.kern p) → Ensures (forEach (destroySlot p) is) w fun _ w' ↦
        ∃ ns, Slots p w w' (fun i ↦ if i ∈ is then none else (w.proc p).vmas i) ns ∧
          ∀ n, n ∈ ns ↔ ∃ i v, i ∈ is ∧ (w.proc p).vmas i = some v ∧ n ∈ pages v.start v.fin by
    apply (hrest slots w hu hk).mono
    rintro _ w' ⟨ns, hs, hns⟩
    have hall : ∀ i : Fin nvma, i ∈ slots := List.mem_finRange
    simp only [hall, if_true, true_and] at hs hns
    exact ⟨ns, hs, hns⟩
  intro is
  induction is with
  | nil =>
    intro w _ _
    rw [forEach, ensures_pure]
    exact ⟨[], by simpa using Slots.refl p w, by simp⟩
  | cons i is ih =>
    intro w hu hk
    rw [forEach, ensures_bind]
    apply (destroySlot_spec w p i hu hk).mono
    intro _ w1 h1
    apply (ih w1 (by rw [h1.there, hu]) (by rw [h1.there, hk])).mono
    rintro _ w2 ⟨ns, h2, hns⟩
    refine ⟨(((w.proc p).vmas i).elim [] fun v ↦ pages v.start v.fin) ++ ns, ?_, ?_⟩
    · have h12 := h1.trans h2
      have hvmas : (fun j ↦ if j ∈ is then none else (w1.proc p).vmas j) =
          fun j ↦ if j ∈ i :: is then none else (w.proc p).vmas j := by
        ext j : 1
        rw [h1.vmas, update_apply]
        by_cases hji : j = i
        · simp [hji]
        · simp [hji]
      rw [hvmas] at h12
      exact h12
    · intro n
      rw [List.mem_append, hns, h1.vmas]
      constructor
      · rintro (hn | ⟨j, v, hj, hv, hn⟩)
        · cases hv : (w.proc p).vmas i with
          | none => simp [hv] at hn
          | some v =>
            rw [hv] at hn
            exact ⟨i, v, List.mem_cons_self, hv, hn⟩
        · rw [update_apply] at hv
          split_ifs at hv
          exact ⟨j, v, List.mem_cons_of_mem i hj, hv, hn⟩
      · rintro ⟨j, v, hj, hv, hn⟩
        by_cases hji : j = i
        · subst hji
          left
          rw [hv]
          exact hn
        · right
          refine ⟨j, v, (List.mem_cons.mp hj).resolve_left hji, ?_, hn⟩
          rw [update_of_ne hji, hv]

end Xv6K210.Vm
