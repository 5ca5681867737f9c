import Xv6K210.Vm.TallyFaults

/-!
# Mappings in the tally

A mapping that is made covers pages that are not mapped yet, and one that is cut or
removed has its pages unmapped first, so a shared page is always where its object says.
-/

namespace Xv6K210.Vm

open Xv6K210.Base Prog Function

variable {P O F : Type}

/-! ### Changing slots -/

/-- The view is the same when the slots tell the same about every page. -/
theorem Layout.view_eq {sz : Nat} {vmas vmas' : Fin nvma → Option (Vma O)} (h : Layout sz vmas)
    {n : Nat} (hkeep : ∀ i v, vmas i = some v → v.contains (n * pgsize) →
      ∃ i' v', vmas' i' = some v' ∧ v'.contains (n * pgsize))
    (hsame : ∀ i v, vmas' i = some v → v.contains (n * pgsize) →
      view vmas n = some (v.page n)) : view vmas' n = view vmas n := by
  rw [view]
  cases hfind : mmapVmaFind vmas' (n * pgsize) with
  | none =>
    have hnone := List.find?_eq_none.mp hfind
    cases hview : view vmas n with
    | none => rfl
    | some x =>
      obtain ⟨i, v, hv, hc, -⟩ := h.view_eq_some.mp hview
      obtain ⟨i', v', hv', hc'⟩ := hkeep i v hv hc
      have hany := hnone i' (List.mem_finRange i')
      rw [hv'] at hany
      exact absurd hc' hany
  | some j =>
    obtain ⟨v, hv, hc⟩ := exists_of_mmapVmaFind hfind
    rw [hsame j v hv hc, Option.bind_some, hv, Option.map_some]

/-- A part of a mapping goes into a free slot. -/
theorem Layout.view_split {sz : Nat} {vmas : Fin nvma → Option (Vma O)} (h : Layout sz vmas)
    {i j : Fin nvma} {v v' : Vma O} (hv : vmas i = some v) (hj : vmas j = none)
    (hpart : ∀ n, v'.contains (n * pgsize) → v.contains (n * pgsize) ∧ v'.page n = v.page n)
    (n : Nat) : view (update vmas j (some v')) n = view vmas n := by
  apply h.view_eq
  · intro k x hx hc
    refine ⟨k, x, ?_, hc⟩
    rw [update_of_ne, hx]
    rintro rfl
    rw [hj] at hx
    cases hx
  · intro k x hx hc
    rw [update_apply] at hx
    split_ifs at hx
    · cases hx
      obtain ⟨hc', hpage⟩ := hpart n hc
      exact h.view_eq_some.mpr ⟨i, v, hv, hc', hpage.symm⟩
    · exact h.view_eq_some.mpr ⟨k, x, hx, hc, rfl⟩

variable [DecidableEq P] {ct : Owner P O → Option (Nat → UInt8)} {fr : P → Option Nat}
  {hs : List Nat}
  {w : World P O F}

/-- Slots tell the same about places, or nothing where nothing is mapped. -/
theorem setVma_tally (h : Tally ct fr hs w) {p : P} {i : Fin nvma} {v : Option (Vma O)}
    (hview : ∀ n, view (update (w.proc p).vmas i v) n = view (w.proc p).vmas n ∨
      view (update (w.proc p).vmas i v) n = none ∧ w.leaf (.user p) n = none) :
    Ensures (setVma p i v) w fun _ w' ↦ Tally ct fr hs w' := by
  unfold setVma
  rw [ensures_modify]
  set w' : World P O F := { w with
    proc := update w.proc p
      { w.proc p with vmas := update (w.proc p).vmas i v } } with hw'
  have hproc : ∀ q, q ≠ p → w'.proc q = w.proc q := fun q hq ↦ update_of_ne hq ..
  have hmine : w'.proc p = { w.proc p with vmas := update (w.proc p).vmas i v } :=
    update_self ..
  have hkstack : ∀ q, (w'.proc q).kstack = (w.proc q).kstack := by
    intro q
    by_cases hq : q = p
    · rw [hq, hmine]
    · rw [hproc q hq]
  have hplace : ∀ q n, w'.place q n = w.place q n ∨
      w'.place q n = none ∧ w.owns fr (.user q n) = none := by
    intro q n
    unfold World.place
    by_cases hq : q = p
    · subst hq
      rw [hmine]
      rcases hview n with hsame | ⟨hnone, hleaf⟩
      · exact .inl (by rw [hsame])
      · exact .inr ⟨by rw [hnone]; rfl, World.owns_user_none hleaf⟩
    · exact .inl (by rw [hproc q hq])
  refine h.views rfl (World.owns_congr rfl rfl hkstack) rfl hkstack ?_ ?_ rfl
  · intro q n y hy hne
    rcases hplace q n with hsame | ⟨-, hnone⟩
    · rw [hsame, hy]
    · exact absurd hnone hne
  · intro q n n' o j j' hn hn'
    have hold : ∀ m x, w'.place q m = some x → w.place q m = some x := by
      intro m x hx
      rcases hplace q m with hsame | ⟨hnone, -⟩
      · rwa [← hsame]
      · rw [hnone] at hx
        cases hx
    exact h.base q n n' o j j' (hold _ _ hn) (hold _ _ hn')

/-! ### Unmapping -/

section

variable [DecidableEq F]

section

omit [DecidableEq P] [DecidableEq F]

private theorem filewriteAt_tally (f : F) (pa offset n : Nat) :
    Ensures (filewriteAt f pa offset n) w fun _ w' ↦ w'.quota = w.quota ∧ w'.mem = w.mem := by
  unfold filewriteAt elock ewriteAt
  simp only [ensures_bind, ensures_get, ensures_ite, ensures_pure, ensures_modify, ensures_set]
  exact ⟨fun _ ↦ ⟨trivial, trivial⟩,
    fun _ ↦ ⟨fun _ ↦ ⟨trivial, trivial⟩, fun _ ↦ ⟨trivial, trivial⟩⟩⟩

private theorem mmapFileWritebackRange_tally (p : P) (v : Vma O) (start fin : Nat) :
    Ensures (mmapFileWritebackRange p v start fin) w fun _ w' ↦
      Quiet w w' ∧ w'.quota = w.quota ∧ w'.mem = w.mem := by
  refine (mmapFileWritebackRange_quiet w p v start fin).and ?_
  have hpage : ∀ (w1 : World P O F) (n : Nat), Ensures (mmapFileWritebackPage p v n) w1
      fun _ w' ↦ w'.quota = w1.quota ∧ w'.mem = w1.mem := by
    intro w1 n
    unfold mmapFileWritebackPage
    simp only [ensures_ite, ensures_pure, ensures_bind]
    refine ⟨fun _ ↦ ⟨trivial, trivial⟩, fun _ ↦ ?_⟩
    apply (walk_spec w1 (.user p) n).mono
    rintro r w2 ⟨rfl, -⟩
    split
    · rw [ensures_pure]
      exact ⟨rfl, rfl⟩
    · simp only [ensures_ite, ensures_pure, ensures_bind, ensures_get]
      refine ⟨fun _ ↦ ⟨trivial, trivial⟩, fun _ ↦ ⟨fun _ ↦ ⟨trivial, trivial⟩, fun _ ↦ ?_⟩⟩
      split
      · exact ensures_halt
      · exact filewriteAt_tally _ _ _ _
  unfold mmapFileWritebackRange
  simp only [ensures_ite, ensures_pure, ensures_bind]
  refine ⟨fun _ ↦ ⟨trivial, trivial⟩, fun _ ↦ ?_⟩
  refine (ensures_stopAt (fun _ w' ↦ w'.quota = w.quota ∧ w'.mem = w.mem)
    (fun _ _ w' ↦ w'.quota = w.quota ∧ w'.mem = w.mem) ?_ ⟨rfl, rfl⟩).mono ?_
  · intro n ns w1 h1
    apply (hpage w1 n).mono
    rintro b w2 h2
    cases b with
    | true => exact ⟨h2.1.trans h1.1, h2.2.trans h1.2⟩
    | false => exact ⟨h2.1.trans h1.1, h2.2.trans h1.2⟩
  · rintro r w' h'
    cases r with
    | none => exact h'
    | some n =>
      obtain ⟨_, _, h'⟩ := h'
      exact h'

private theorem writebackSlots_tally (p : P) (addr fin : Nat) :
    Ensures (stopAt (writebackSlot p addr fin) slots) w fun _ w' ↦
      Quiet w w' ∧ w'.quota = w.quota ∧ w'.mem = w.mem := by
  refine (writebackSlots_quiet w p addr fin).and ?_
  refine (ensures_stopAt (fun _ w' ↦ w'.quota = w.quota ∧ w'.mem = w.mem)
    (fun _ _ w' ↦ w'.quota = w.quota ∧ w'.mem = w.mem) ?_ ⟨rfl, rfl⟩).mono ?_
  · intro i is w1 h1
    have hslot : Ensures (writebackSlot p addr fin i) w1 fun _ w' ↦ w'.quota = w1.quota ∧
      w'.mem = w1.mem := by
      unfold writebackSlot
      rw [ensures_bind, ensures_get]
      split
      · rw [ensures_pure]
        exact ⟨rfl, rfl⟩
      · rw [ensures_ite, ensures_pure]
        exact ⟨fun _ ↦ (mmapFileWritebackRange_tally p _ _ _).mono fun _ _ h ↦ h.2,
          fun _ ↦ ⟨rfl, rfl⟩⟩
    apply hslot.mono
    rintro b w2 h2
    cases b with
    | true => exact ⟨h2.1.trans h1.1, h2.2.trans h1.2⟩
    | false => exact ⟨h2.1.trans h1.1, h2.2.trans h1.2⟩
  · rintro r w' h'
    cases r with
    | none => exact h'
    | some n =>
      obtain ⟨_, _, h'⟩ := h'
      exact h'

end

variable [Fintype P] (hP : Fintype.card P ≤ nproc)

include hP

omit [DecidableEq F] in
/-- Pages of user memory go from both tables. -/
theorem vmaUnmapPages_tally (h : Tally ct fr hs w) (p : P) {start fin : Nat}
    (hns : ∀ n ∈ pages start fin, UserPage n) (hct : ∀ n ∈ pages start fin, ct (.user p n) = none) :
    Ensures (vmaUnmapPages p start fin) w fun _ w' ↦ Tally ct fr hs w' ∧ w'.obj = w.obj := by
  unfold vmaUnmapPages
  refine (ensures_forEach (fun left w' ↦ (∀ n ∈ left, UserPage n ∧ ct (.user p n) = none) ∧
    Tally ct fr hs w' ∧ w'.obj = w.obj) ?_
    ⟨fun n hn ↦ ⟨hns n hn, hct n hn⟩, h, rfl⟩).mono fun _ _ h' ↦ h'.2
  rintro n left w1 ⟨hns1, h1, hobj1⟩
  have hone : ∀ m ∈ [n], UserPage m ∧ ct (.user p m) = none := by
    intro m hm
    rw [List.mem_singleton] at hm
    rw [hm]
    exact hns1 n List.mem_cons_self
  unfold vmaUnmapPage
  refine (uvmunmap_unowned hP h1 fun m hm ↦ h1.not_owned p (hone m hm).1).bind ?_
  rintro _ w2 ⟨h2, hobj2⟩
  refine (uvmunmap_process hP (t := .user p) trivial h2 (fun m hm ↦ (hone m hm).1)
    fun m hm ↦ (hone m hm).2).mono ?_
  rintro _ w3 ⟨h3, hobj3⟩
  exact ⟨fun m hm ↦ hns1 m (List.mem_cons_of_mem n hm), h3, (hobj3.trans hobj2).trans hobj1⟩

variable [DecidableEq O]

/-- A round of the last loop of `vma_unmap` keeps the tally. -/
theorem unmapSlot_tally (h : Tally ct fr hs w) {p : P} (hlay : Layout (w.proc p).sz (w.proc p).vmas)
    {addr fin : Nat} (haddr : addr % pgsize = 0) (hfin : fin % pgsize = 0) (hlt : addr < fin)
    {split : Option (Fin nvma)} (hsplit : ∀ j, split = some j → (w.proc p).vmas j = none)
    (hobjs : NoObjects ct) (hct : ∀ n ∈ pages addr fin, ct (.user p n) = none) (i : Fin nvma) :
    Ensures (unmapSlot p addr fin split i) w fun _ w' ↦ Tally ct fr hs w' := by
  unfold unmapSlot
  rw [ensures_bind, ensures_get]
  split
  · rw [ensures_pure]
    exact h
  · rename_i v hv
    rw [ensures_ite, ensures_pure]
    refine ⟨fun ho ↦ ?_, fun _ ↦ h⟩
    have ho' := Vma.overlaps_iff.mp ho
    have hok := hlay.ok i v hv
    have hmod : max addr v.start % pgsize = 0 := by
      rcases max_choice addr v.start with hm | hm
      · rwa [hm]
      · rw [hm]
        exact hok.start_mod
    have huser : ∀ n ∈ pages (max addr v.start) (min fin v.fin), UserPage n := by
      intro n hn
      rw [mem_pages hmod] at hn
      exact (lt_min_iff.mp hn.2).2.trans_le (hok.fin_le.trans (by decide))
    have hgone : ∀ n ∈ pages (max addr v.start) (min fin v.fin), ct (.user p n) = none := by
      intro n hn
      rw [mem_pages hmod] at hn
      apply hct
      rw [mem_pages haddr]
      exact ⟨(max_le_iff.mp hn.1).1, (lt_min_iff.mp hn.2).1⟩
    refine ((vmaUnmapPages_spec w p _ _).and (vmaUnmapPages_tally hP h p huser hgone)).bind ?_
    rintro _ w1 ⟨heff1, h1, -⟩
    have hvmas1 : (w1.proc p).vmas = (w.proc p).vmas := by rw [heff1.core.proc]
    have hleaf1 : ∀ n ∈ pages (max addr v.start) (min fin v.fin), w1.leaf (.user p) n = none := by
      intro n hn
      rw [heff1.leaf, Leaves.unmap_user]
      exact if_pos hn
    -- the slots afterwards tell the same about the pages that are left
    have hview : ∀ {vmas : Fin nvma → Option (Vma O)} {split' : Option (Fin nvma)}
        {ns : List Nat}, Cut addr fin (w.proc p).vmas split i vmas split' ns →
        ns = pages (max addr v.start) (min fin v.fin) → ∀ n,
        view vmas n = view (w1.proc p).vmas n ∨
          view vmas n = none ∧ w1.leaf (.user p) n = none := by
      intro vmas split' ns hcut hns n
      obtain ⟨hlay', hpieces, -⟩ := hlay.cut haddr hfin hlt hsplit hcut
      have hn := hpieces.view hlay hlay' n
      rw [hvmas1]
      by_cases hmem : n ∈ ns
      · rw [if_pos hmem] at hn
        exact .inr ⟨hn, hleaf1 n (hns ▸ hmem)⟩
      · rw [if_neg hmem] at hn
        exact .inl hn
    simp only [ensures_ite, ensures_bind, ensures_pure]
    refine ⟨fun hc ↦ ?_, fun hc ↦ ⟨fun hc' ↦ ?_, fun hc' ↦ ⟨fun hc'' ↦ ?_, fun hc'' ↦ ?_⟩⟩⟩
    · have hcut : Cut addr fin (w.proc p).vmas split i _ split _ :=
        .whole v hv ho (by omega) (by omega)
      refine (setVma_tally h1 fun n ↦ ?_).mono fun _ w2 h2 ↦
        putIfAny_tally hP h2 _ fun o _ ↦ hobjs.spare o
      have hn := hview hcut (by rw [hc.1, hc.2]) n
      rwa [hvmas1] at hn ⊢
    · have hmin : min fin v.fin = fin := by omega
      have hcut : Cut addr fin (w.proc p).vmas split i _ split _ :=
        .head v hv ho (by omega) (by omega)
      refine setVma_tally h1 fun n ↦ ?_
      have hn := hview hcut (by rw [hc', hmin]) n
      rw [hmin]
      rwa [hvmas1] at hn ⊢
    · have hmax : max addr v.start = addr := by omega
      have hcut : Cut addr fin (w.proc p).vmas split i _ split _ :=
        .tail v hv ho (by omega) (by omega)
      refine setVma_tally h1 fun n ↦ ?_
      have hn := hview hcut (by rw [hc'', hmax]) n
      rw [hmax]
      rwa [hvmas1] at hn ⊢
    · have hmax : max addr v.start = addr := by omega
      have hmin : min fin v.fin = fin := by omega
      rw [hmax, hmin] at hview
      rw [hmax, hmin]
      cases hj : split with
      | none => exact ensures_halt
      | some j =>
        have hcut := Cut.middle v j hv ho (by omega) (by omega) hj
        simp only [ensures_bind, ensures_pure]
        have hfree := hsplit j hj
        have hupper : ∀ n, view (update (w1.proc p).vmas j (some (v.above fin))) n =
            view (w1.proc p).vmas n := by
          rw [hvmas1]
          refine hlay.view_split hv hfree fun n hc ↦ ?_
          rw [Vma.contains_iff] at hc
          have hle : fin ≤ n * pgsize := hc.1
          have hlt' : n * pgsize < v.fin := hc.2
          exact ⟨Vma.contains_iff.mpr ⟨by omega, hlt'⟩, Vma.page_above (by omega) hle⟩
        refine ((setVma_proc w1 p j _).and (setVma_tally h1 fun n ↦ .inl (hupper n))).mono ?_
        rintro _ w2 ⟨hs2, h2⟩
        refine ((mmapObjectGet_tab w2 v.object).and (mmapObjectGet_tally h2 v.object)).mono ?_
        rintro _ w3 ⟨htab3, h3⟩
        have hvmas3 : (w3.proc p).vmas =
            update (w1.proc p).vmas j (some (v.above fin)) := by
          rw [htab3.proc, hs2.vmas]
        have hleaf3 : w3.leaf = w1.leaf := by
          rw [htab3.leaf, hs2.leaf, Leaves.unmap_nil]
        refine setVma_tally h3 fun n ↦ ?_
        have hn := hview hcut rfl n
        rw [hvmas3, hleaf3, hupper, hvmas1]
        rwa [hvmas1] at hn

private theorem unmapSlots_tally {p : P} {addr fin : Nat} (haddr : addr % pgsize = 0)
    (hfin : fin % pgsize = 0) (hlt : addr < fin) (is : List (Fin nvma)) (w : World P O F)
    (split : Option (Fin nvma)) (hsplit : ∀ j, split = some j → (w.proc p).vmas j = none)
    (hspace : SpaceAt w p) (hobjs : NoObjects ct) (hct : ∀ n ∈ pages addr fin,
      ct (.user p n) = none)
    (h : Tally ct fr hs w) :
    Ensures (unmapSlots p addr fin split is) w fun _ w' ↦ Tally ct fr hs w' := by
  induction is generalizing w split with
  | nil =>
    rw [unmapSlots, ensures_pure]
    exact h
  | cons i is ih =>
    rw [unmapSlots, ensures_bind]
    refine ((unmapSlot_spec w p addr fin split i).and
      (unmapSlot_tally hP h hspace.layout haddr hfin hlt hsplit hobjs hct i)).mono ?_
    rintro split' w1 ⟨⟨vmas, ns, hcut, hs1⟩, h1⟩
    obtain ⟨hspace1, hsplit'⟩ := Space.cut hspace haddr hfin hlt hsplit hcut
    rw [← hs1.vmas] at hsplit'
    exact ih w1 split' hsplit' (.of_slots hs1 hspace1) h1

/-- `vma_unmap` keeps the tally. -/
theorem vmaUnmap_tally (h : Tally ct fr hs w) {p : P} (hspace : SpaceAt w p) (addr length : Nat)
    (hobjs : NoObjects ct)
    (hct : ∀ n ∈ pages addr (pgroundup (addr + length)), ct (.user p n) = none) :
    Ensures (vmaUnmap p addr length) w fun _ w' ↦ Tally ct fr hs w' := by
  unfold vmaUnmap
  simp only [ensures_bind, ensures_get, ensures_ite, ensures_pure]
  refine ⟨fun _ ↦ h, fun hargs ↦ ⟨fun _ ↦ h, fun _ ↦ ⟨fun _ ↦ h, fun _ ↦ ⟨fun _ ↦ h, fun _ ↦
    ⟨fun _ ↦ h, fun _ ↦ ?_⟩⟩⟩⟩⟩
  apply (writebackSlots_tally p _ _).mono
  rintro r w1 ⟨hq1, hquota1, hmem1⟩
  have h1 := h.quiet hq1 hquota1 hmem1
  cases r with
  | some i =>
    rw [ensures_pure]
    exact h1
  | none =>
    simp only [ensures_bind, ensures_pure]
    have hlt : addr < pgroundup (addr + length) := by
      have := le_pgroundup (addr + length)
      omega
    have haddr : addr % pgsize = 0 := by
      by_contra hne
      exact hargs (.inr (.inl hne))
    refine unmapSlots_tally hP haddr (pgroundup_mod _) hlt slots w1 _ ?_ (hspace.tab hq1.tab) hobjs
      hct h1
    intro j hj
    rw [hq1.core.proc]
    split_ifs at hj
    exact vmaFindFree_none hj

/-- `sys_munmap` keeps the tally. -/
theorem sysMunmap_tally (h : Tally ct fr hs w) {p : P} (hspace : SpaceAt w p) (addr : Nat)
    (length : Int) (hobjs : NoObjects ct)
    (hct : ∀ n ∈ pages addr (pgroundup (addr + length.toNat)), ct (.user p n) = none) :
      Ensures (sysMunmap p addr length) w fun _ w' ↦ Tally ct fr hs w' := by
  unfold sysMunmap
  rw [ensures_ite, ensures_pure]
  exact ⟨fun _ ↦ h, fun _ ↦ vmaUnmap_tally hP h hspace addr _ hobjs hct⟩

/-! ### Removing all mappings -/

/-- A process has both tables, or no mapping. -/
def World.Mapped (w : World P O F) (p : P) : Prop :=
  w.there (.user p) = true ∧ w.there (.kern p) = true ∨ ∀ i, (w.proc p).vmas i = none

private theorem destroySlot_tally (h : Tally ct fr hs w) {p : P}
    (hlay : Layout (w.proc p).sz (w.proc p).vmas)
    (hmapped : w.Mapped p) (i : Fin nvma)
    (hct : ∀ v, (w.proc p).vmas i = some v → (∀ n ∈ pages v.start v.fin, ct (.user p n) = none) ∧
      ∀ o, v.object = some o → w.Spare ct o) :
    Ensures (destroySlot p i) w fun _ w' ↦ Tally ct fr hs w' := by
  unfold destroySlot
  rw [ensures_bind, ensures_get]
  split
  · rw [ensures_pure]
    exact h
  · rename_i v hv
    obtain ⟨hu, hk⟩ := hmapped.resolve_right fun hnone ↦ by
      rw [hnone i] at hv
      cases hv
    have hok := hlay.ok i v hv
    change (w.pt (.user p)).root.isSome = true at hu
    change (w.pt (.kern p)).root.isSome = true at hk
    simp only [doIf, hu, hk, and_self, if_true, ensures_bind, ensures_pure]
    apply (mmapFileWritebackRange_tally p v _ _).mono
    rintro _ w1 ⟨hq1, hquota1, hmem1⟩
    have huser : ∀ n ∈ pages v.start v.fin, UserPage n := by
      intro n hn
      rw [mem_pages hok.start_mod] at hn
      exact hn.2.trans_le (hok.fin_le.trans (by decide))
    obtain ⟨hpages, hspare⟩ := hct v hv
    refine ((vmaUnmapPages_spec w1 p _ _).and
      (vmaUnmapPages_tally hP (h.quiet hq1 hquota1 hmem1) p huser hpages)).mono ?_
    rintro _ w2 ⟨heff2, h2, hobj2⟩
    have hspare2 : ∀ o, v.object = some o → w2.Spare ct o := by
      intro o ho
      unfold World.Spare
      rw [hobj2, hq1.obj]
      exact hspare o ho
    refine ((putIfAny_tab w2 v.object).and (putIfAny_tally hP h2 v.object hspare2)).mono ?_
    rintro _ w3 ⟨htab3, h3⟩
    have hvmas3 : (w3.proc p).vmas = (w.proc p).vmas := by
      rw [htab3.proc, heff2.core.proc, hq1.core.proc]
    refine setVma_tally h3 fun n ↦ ?_
    have hcut : Cut v.start v.fin (w.proc p).vmas none i _ none (pages v.start v.fin) :=
      .whole v hv (Vma.overlaps_iff.mpr ⟨hok.start_lt, hok.start_lt⟩) le_rfl le_rfl
    obtain ⟨hlay', hpieces, -⟩ := hlay.cut hok.start_mod hok.fin_mod hok.start_lt
      (by rintro _ ⟨⟩) hcut
    have hn := hpieces.view hlay hlay' n
    rw [hvmas3]
    by_cases hmem : n ∈ pages v.start v.fin
    · rw [if_pos hmem] at hn
      refine .inr ⟨hn, ?_⟩
      rw [htab3.leaf, heff2.leaf, Leaves.unmap_user]
      exact if_pos hmem
    · rw [if_neg hmem] at hn
      exact .inl hn

/-- `vma_destroy_all` keeps the tally. -/
theorem vmaDestroyAll_tally (h : Tally ct fr hs w) {p : P}
    (hlay : Layout (w.proc p).sz (w.proc p).vmas) (hmapped : w.Mapped p) (hobjs : NoObjects ct)
    (hct : ∀ n, ct (.user p n) = none) :
    Ensures (vmaDestroyAll p) w fun _ w' ↦ Tally ct fr hs w' := by
  refine (ensures_forEach (fun _ w' ↦ Layout (w'.proc p).sz (w'.proc p).vmas ∧ w'.Mapped p ∧
    Tally ct fr hs w') ?_ ⟨hlay, hmapped, h⟩).mono fun _ _ h' ↦ h'.2.2
  rintro i is w1 ⟨hlay1, hmapped1, h1⟩
  have hslots : Ensures (destroySlot p i) w1 fun _ w' ↦
      Layout (w'.proc p).sz (w'.proc p).vmas ∧ w'.Mapped p := by
    rcases hmapped1 with ⟨hu, hk⟩ | hnone
    · apply (destroySlot_spec w1 p i hu hk).mono
      intro _ w2 h2
      refine ⟨?_, .inl ⟨by rw [h2.there, hu], by rw [h2.there, hk]⟩⟩
      rw [h2.proc, update_self]
      exact hlay1.erase i
    · unfold destroySlot
      rw [ensures_bind, ensures_get, hnone i]
      exact ensures_pure.mpr ⟨hlay1, .inr hnone⟩
  refine (hslots.and (destroySlot_tally hP h1 hlay1 hmapped1 i fun v _ ↦
    ⟨fun n _ ↦ hct n, fun o _ ↦ hobjs.spare o⟩)).mono ?_
  rintro _ w2 ⟨⟨hlay2, hmapped2⟩, h2⟩
  exact ⟨hlay2, hmapped2, h2⟩

end

end Xv6K210.Vm
