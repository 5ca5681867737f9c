import Xv6K210.Vm.TallyMaps

/-!
# Fork in the tally

The child takes for every entry of the parent one more reference to the page, at the
same page number, so a page that the two share is theirs at one place only, and a page of an object
is where the mappings of both say.
-/

namespace Xv6K210.Vm

open Xv6K210.Base Prog Function

variable {P O F : Type} [DecidableEq P] {ct : Owner P O → Option (Nat → UInt8)}
  {fr : P → Option Nat}
  {hs : List Nat} {w : World P O F}

/-! ### A page that the child shares -/

/-- A page of the parent is mapped by the child at the same place. -/
theorem Tally.putEntry_heir {pa : Nat} (h : Tally ct fr (pa :: hs) w) {p c : P} (hpc : p ≠ c)
    {n : Nat} (hn : UserPage n) (hfree : w.leaf (.user c) n = none)
    (hthere : w.there (.user c) = true) (hp : w.owns fr (.user p n) = some pa)
    (hc : ∀ m, w.owns fr (.user c m) ≠ some pa) (hi : w.there (.image c) = false)
    (hplace : ∀ b, w.place p n = some b → w.place c n = some b) (perm : Perm) :
    Tally ct fr hs (w.putEntry (.user c) n (some ⟨pa, perm⟩)) := by
  have howned : w.Owned (.user c) n := hn
  have hrest : ∀ z, z ≠ .user c n → (w.putEntry (.user c) n (some ⟨pa, perm⟩)).owns fr z =
      w.owns fr z := fun z hz ↦ howned.putEntry_of_ne _ hz
  refine h.gain hrest (World.owns_user_none hfree) (howned.putEntry _) rfl ?_ ?_ h.keyed rfl h.stack
    ?_ rfl
  · intro z hz
    rcases h.once z _ pa hz hp with rfl | hshares
    · exact hpc
    · cases z with
      | user q m =>
        rintro rfl
        exact hc m hz
      | image q m =>
        rintro rfl
        rw [h.null (.image q) (by simpa [World.there, World.owns] using hi) (.image q m) rfl] at hz
        cases hz
      | anon o i => trivial
      | kbuf o i => trivial
      | _ => exact absurd hshares id
  · intro t ht
    cases ht
    exact .inr (World.there_root hthere)
  · intro q m z b hu hz hb
    have hz' : w.owns fr z = some pa := by
      rwa [hrest z] at hz
      rintro rfl
      cases hb
    by_cases hqm : (.user q m : Owner P O) = .user c n
    · cases hqm
      exact hplace b (h.member p n z b pa hp hz' hb)
    · rw [hrest _ hqm] at hu
      exact h.member q m z b pa hu hz' hb

/-- What the child has of the parent while `fork` runs: it shares pages at the same place only. -/
structure Heir (p c : P) (w : World P O F) : Prop where
  user : w.there (.user c) = true
  image : w.there (.image c) = false
  same : ∀ n e', UserPage n → w.leaf (.user c) n = some e' →
    ∃ e, w.leaf (.user p) n = some e ∧ e.pa = e'.pa

omit [DecidableEq P] in
/-- Only pages in use by the parent are in use by the child, and a page of the parent that the child
does not have yet is not at another place of the child. -/
theorem Heir.not_owns {p c : P} {n pa : Nat} (h : Heir p c w) (htally : Tally ct fr hs w)
    (hp : w.owns fr (.user p n) = some pa) (hfree : w.leaf (.user c) n = none) (m : Nat) :
    w.owns fr (.user c m) ≠ some pa := by
  intro hm
  by_cases hpage : UserPage m
  · rw [show w.owns fr (.user c m) = _ from w.owns_entry (t := .user c) trivial hpage,
      Option.map_eq_some_iff] at hm
    obtain ⟨e', he', rfl⟩ := hm
    obtain ⟨e, he, hpa⟩ := h.same m e' hpage he'
    have howner : w.owns fr (.user p m) = some e'.pa := by
      rw [show w.owns fr (.user p m) = _ from w.owns_entry (t := .user p) trivial hpage, he,
        ← hpa]
      rfl
    rcases htally.once _ _ _ hp howner with heq | hshares
    · cases heq
      rw [hfree] at he'
      cases he'
    · exact hshares rfl
  · rw [show w.owns fr (.user c m) = _ from w.owns_entry_of_not (t := .user c) trivial hpage] at hm
    cases hm

/-- What a round of `fork` leaves. -/
structure Shares (ct : Owner P O → Option (Nat → UInt8)) (fr : P → Option Nat) (hs : List Nat)
    (p c : P) (w w' : World P O F) : Prop where
  tally : Tally ct fr hs w'
  heir : Heir p c w'
  obj : w'.obj = w.obj
  proc : w'.proc = w.proc
  there : ∀ t, w'.there t = w.there t

omit [DecidableEq P] in
/-- Shares of two copies. -/
theorem Shares.trans {p c : P} {w1 w2 : World P O F} (h1 : Shares ct fr hs p c w w1)
    (h2 : Shares ct fr hs p c w1 w2) : Shares ct fr hs p c w w2 := by
  refine ⟨h2.tally, h2.heir, h2.obj.trans h1.obj, h2.proc.trans h1.proc, fun t ↦ ?_⟩
  rw [h2.there, h1.there]

/-- A page of the parent that is mapped by the child, with one more reference. -/
theorem mapHeir_tally [Fintype P] (hP : Fintype.card P ≤ nproc) (h : Tally ct fr hs w)
    (hroom : ∀ x, hs.count x < nproc) {p c : P} (hpc : p ≠ c) {n : Nat} (hn : UserPage n)
    (hheir : Heir p c w) {e : Pte} (he : w.leaf (.user p) n = some e)
    (hplace : ∀ b, w.place p n = some b → w.place c n = some b) (perm : Perm) :
    Ensures (mappages (.user c) n e.pa perm) w fun ok w' ↦
      if ok then Ensures (kaddquota e.pa) w' fun _ w'' ↦ Shares ct fr hs p c w w''
      else Shares ct fr hs p c w w' := by
  apply (mappages_tally h n e.pa perm hheir.user).mono
  rintro ok _ ⟨w1, h1, hg, ⟨rfl, hfree, rfl⟩ | ⟨rfl, rfl⟩⟩
  · have hheir1 : Heir p c w1 := by
      refine ⟨by rw [hg.core.there, hheir.user], by rw [hg.core.there, hheir.image], ?_⟩
      rw [hg.leaf]
      exact hheir.same
    have hp1 : w1.owns fr (.user p n) = some e.pa := by
      rw [show w1.owns fr (.user p n) = _ from w1.owns_entry (t := .user p) trivial hn, hg.leaf, he]
      rfl
    have hfree1 : w1.leaf (.user c) n = none := by rw [hg.leaf, hfree]
    have hplace1 : ∀ b, w1.place p n = some b → w1.place c n = some b := by
      rw [hg.place]
      exact hplace
    -- the store to the table and the count do not depend on each other
    have hadd := (kaddquota_tally hP h1 (hroom e.pa)).mono fun _ w' ⟨_, h', _⟩ ↦ h'
    unfold kaddquota at hadd ⊢
    rw [ensures_modify] at hadd
    rw [if_pos rfl, ensures_modify]
    have h2 := hadd.putEntry_heir hpc hn hfree1 hheir1.user hp1 (hheir1.not_owns h1 hp1 hfree1)
      hheir1.image hplace1 perm
    have heff := w1.putEntry_eff (.user c) n (some ⟨e.pa, perm⟩)
    refine ⟨h2, ⟨(heff.core.there _).trans hheir1.user, (heff.core.there _).trans hheir1.image,
      fun m e' hm he' ↦ ?_⟩, hg.obj, hg.core.proc,
      fun t ↦ (heff.core.there t).trans (hg.core.there t)⟩
    have hleaf : (w1.putEntry (.user c) n (some ⟨e.pa, perm⟩)).leaf (.user c) m = some e' := he'
    have hother : (w1.putEntry (.user c) n (some ⟨e.pa, perm⟩)).leaf (.user p) m =
        w1.leaf (.user p) m := by rw [heff.leaf, Leaves.put_ne _ (by simpa using hpc)]
    change ∃ x, (w1.putEntry (.user c) n (some ⟨e.pa, perm⟩)).leaf (.user p) m = some x ∧
      x.pa = e'.pa
    rw [hother]
    rw [heff.leaf, Leaves.put_apply] at hleaf
    split_ifs at hleaf with hmn
    · cases hleaf
      exact ⟨e, by rw [hmn.2, hg.leaf, he], rfl⟩
    · exact hheir1.same m e' hm hleaf
  · rw [if_neg (by simp)]
    refine ⟨h1, ⟨by rw [hg.core.there, hheir.user], by rw [hg.core.there, hheir.image], ?_⟩, hg.obj,
      hg.core.proc, hg.core.there⟩
    rw [hg.leaf]
    exact hheir.same

/-- An entry of the parent is marked. -/
theorem Shares.mark {p c : P} (h : Tally ct fr hs w) (hheir : Heir p c w) (hpc : p ≠ c) {n : Nat}
    {e e' : Pte} (he : w.leaf (.user p) n = some e) (hpa : e'.pa = e.pa) :
    Shares ct fr hs p c w (w.putEntry (.user p) n (some e')) := by
  have heff := w.putEntry_eff (.user p) n (some e')
  refine ⟨h.putEntry_same (t := .user p) trivial he hpa, ⟨(heff.core.there _).trans hheir.user,
    (heff.core.there _).trans hheir.image, fun m x hm hx ↦ ?_⟩, rfl, rfl, heff.core.there⟩
  rw [heff.leaf, Leaves.put_ne _ (by simpa using Ne.symm hpc)] at hx
  obtain ⟨y, hy, hxy⟩ := hheir.same m x hm hx
  rw [heff.leaf, Leaves.put_apply]
  split_ifs with hmn
  · rw [hmn.2, he] at hy
    cases hy
    exact ⟨e', rfl, hpa.trans hxy⟩
  · exact ⟨y, hy, hxy⟩

section

variable [Fintype P] (hP : Fintype.card P ≤ nproc) {p c : P} (hpc : p ≠ c)

include hP hpc

private theorem uvmcopyPage_tally (h : Tally ct fr hs w) (hroom : ∀ x, hs.count x < nproc) {n : Nat}
    (hn : UserPage n) (hheir : Heir p c w)
    (hplace : ∀ b, w.place p n = some b → w.place c n = some b) :
    Ensures (uvmcopyPage (.user p) (.user c) n) w fun _ w' ↦ Shares ct fr hs p c w w' := by
  have hmap : ∀ {w1 : World P O F} {e : Pte}, Shares ct fr hs p c w w1 →
      w1.leaf (.user p) n = some e → ∀ perm, Ensures (do
        if ← mappages (.user c) n e.pa perm then
          kaddquota e.pa
          pure true
        else
          pure false) w1 fun _ w' ↦ Shares ct fr hs p c w w' := by
    intro w1 e h1 he perm
    have hplace1 : ∀ b, w1.place p n = some b → w1.place c n = some b := by
      rw [World.place_congr fun q ↦ congrArg (fun f ↦ (f q).vmas) h1.proc]
      exact hplace
    apply (mapHeir_tally hP h1.tally hroom hpc hn h1.heir he hplace1 perm).bind
    intro ok w2 h2
    rw [ensures_ite, ensures_pure]
    constructor
    · intro hok
      rw [if_pos hok] at h2
      simp only [ensures_bind, ensures_pure]
      exact h2.mono fun _ _ h3 ↦ h1.trans h3
    · intro hok
      rw [if_neg hok] at h2
      exact h1.trans h2
  have hself : Shares ct fr hs p c w w := ⟨h, hheir, rfl, rfl, fun _ ↦ rfl⟩
  unfold uvmcopyPage
  apply (walk_spec w _ n).bind
  rintro r w0 ⟨rfl, hr⟩
  cases r with
  | none =>
    rw [ensures_pure]
    exact hself
  | some e =>
    have he : w0.leaf (.user p) n = some e := hr.symm
    rw [ensures_bind, ensures_doIf]
    refine ⟨fun _ ↦ ?_, fun _ ↦ hmap hself he _⟩
    apply (setLeaf_eq w0 _ n _).mono
    rintro _ _ rfl
    generalize (if e.perm.w = true then e.perm.share else e.perm) = perm
    have hmark : Shares ct fr hs p c w0 (w0.putEntry (.user p) n (some ⟨e.pa, perm⟩)) :=
      .mark h hheir hpc he rfl
    refine hmap (e := ⟨e.pa, perm⟩) hmark ?_ _
    rw [(w0.putEntry_eff _ _ _).leaf, Leaves.put_same, update_self]

/-- `uvmcopy_range`. -/
theorem uvmcopyRange_tally (h : Tally ct fr hs w) (hroom : ∀ x, hs.count x < nproc)
    {start fin : Nat} (hstart : start % pgsize = 0) (hfin : fin ≤ maxuva) (hheir : Heir p c w)
    (hplace : ∀ n ∈ pages start fin, ∀ b, w.place p n = some b → w.place c n = some b)
    (hct : ∀ n, ct (.user c n) = none) :
    Ensures (uvmcopyRange (.user p) (.user c) start fin) w fun ok w' ↦
      Tally ct fr hs w' ∧ w'.obj = w.obj ∧ w'.proc = w.proc ∧ (∀ t, w'.there t = w.there t) ∧
        (ok = true → Heir p c w') := by
  unfold uvmcopyRange
  refine (ensures_stopAt
    (fun left w' ↦ left ⊆ pages start fin ∧ Shares ct fr hs p c w w')
    (fun n _ w' ↦ n ∈ pages start fin ∧ Shares ct fr hs p c w w') ?_
    ⟨fun _ hn ↦ hn, h, hheir, rfl, rfl, fun _ ↦ rfl⟩).bind ?_
  · rintro n left w1 ⟨hsub, h1⟩
    have hn := hsub List.mem_cons_self
    have hplace1 : ∀ b, w1.place p n = some b → w1.place c n = some b := by
      rw [World.place_congr fun q ↦ congrArg (fun f ↦ (f q).vmas) h1.proc]
      exact hplace n hn
    apply (uvmcopyPage_tally hP hpc h1.tally hroom (userPage_of_mem_pages hstart hfin hn) h1.heir
      hplace1).mono
    intro ok w2 h2
    cases ok with
    | false => exact ⟨hn, h1.trans h2⟩
    | true => exact ⟨fun m hm ↦ hsub (List.mem_cons_of_mem n hm), h1.trans h2⟩
  · intro r w1 h1
    cases r with
    | none =>
      rw [ensures_pure]
      exact ⟨h1.2.tally, h1.2.obj, h1.2.proc, h1.2.there, fun _ ↦ h1.2.heir⟩
    | some n =>
      obtain ⟨_, -, hn, h1⟩ := h1
      have hlt := ((mem_pages hstart).mp hn).2
      refine ((uvmunmap_spec w1 (.user c) _ true).and (uvmunmap_process hP (t := .user c) trivial
        h1.tally (fun m hm ↦ ?_) fun m _ ↦ hct m)).bind ?_
      · exact userPage_of_mem_pages hstart (hlt.le.trans hfin) hm
      · rintro _ w2 ⟨heff2, h2, hobj2⟩
        rw [ensures_pure]
        refine ⟨h2, hobj2.trans h1.obj, heff2.core.proc.trans h1.proc, fun t ↦ ?_, nofun⟩
        rw [heff2.core.there, h1.there]

end

/-! ### The mappings of the child -/

omit [DecidableEq P] in
/-- More mappings show more pages. -/
theorem Layout.view_mono {sz : Nat} {vmas vmas' : Fin nvma → Option (Vma O)} (h : Layout sz vmas')
    (hsub : ∀ i v, vmas i = some v → vmas' i = some v) {n : Nat} {x : PageView O}
    (hx : view vmas n = some x) : view vmas' n = some x := by
  rw [view, Option.map_eq_some_iff] at hx
  obtain ⟨v, hv, rfl⟩ := hx
  rw [Option.bind_eq_some_iff] at hv
  obtain ⟨i, hfind, hi⟩ := hv
  obtain ⟨v', hv', hc⟩ := exists_of_mmapVmaFind hfind
  rw [hi] at hv'
  cases hv'
  exact h.view_eq_some.mpr ⟨i, v, hsub i v hi, hc, rfl⟩

/-- The mappings of the child are some of those of the parent. -/
def Inherited (p c : P) (w : World P O F) : Prop :=
  ∀ i v, (w.proc c).vmas i = some v → (w.proc p).vmas i = some v

omit [DecidableEq P] in
private theorem Layout.sub {sz : Nat} {vmas vmas' : Fin nvma → Option (Vma O)} (h : Layout sz vmas')
    (hsub : ∀ i v, vmas i = some v → vmas' i = some v) : Layout sz vmas :=
  ⟨fun i v hv ↦ h.ok i v (hsub i v hv), fun i v hv ↦ h.above i v (hsub i v hv),
    fun i j v v' hv hv' hij ↦ h.disjoint i j v v' (hsub i v hv) (hsub j v' hv') hij⟩

variable [DecidableEq O]

private theorem forkSlot_tally (h : Tally ct fr hs w) {p c : P} (hpc : p ≠ c) (i : Fin nvma)
    (hlay : Layout (w.proc p).sz (w.proc p).vmas) (hsub : Inherited p c w) :
    Ensures (forkSlot p c i) w fun _ w' ↦
      Tally ct fr hs w' ∧ w'.proc p = w.proc p ∧ Inherited p c w' := by
  unfold forkSlot
  rw [ensures_bind, ensures_get]
  split
  · rw [ensures_pure]
    exact ⟨h, rfl, hsub⟩
  · rename_i v hv
    rw [ensures_bind]
    have hset : Ensures (setVma c i (some v)) w fun _ w' ↦
        Tally ct fr hs w' ∧ w'.proc p = w.proc p ∧ Inherited p c w' := by
      unfold setVma
      rw [ensures_modify]
      set w' : World P O F := { w with
        proc := update w.proc c
          { w.proc c with vmas := update (w.proc c).vmas i (some v) } } with hw'
      have hproc : ∀ q, q ≠ c → w'.proc q = w.proc q := fun q hq ↦ update_of_ne hq ..
      have hmine : w'.proc c =
          { w.proc c with vmas := update (w.proc c).vmas i (some v) } :=
        update_self ..
      have hkstack : ∀ q, (w'.proc q).kstack = (w.proc q).kstack := by
        intro q
        by_cases hq : q = c
        · rw [hq, hmine]
        · rw [hproc q hq]
      have hsub' : Inherited p c w' := by
        intro j x hx
        rw [hproc p hpc]
        rw [hmine] at hx
        dsimp only at hx
        rw [update_apply] at hx
        split_ifs at hx with hj
        · cases hx
          rw [hj, hv]
        · exact hsub j x hx
      have hgrow : ∀ j x, (w.proc c).vmas j = some x → (w'.proc c).vmas j = some x := by
        intro j x hx
        rw [hmine]
        dsimp only
        rw [update_apply]
        split_ifs with hj
        · rw [← hv, ← hj, hsub j x hx]
        · exact hx
      have hlay' : Layout (w.proc p).sz (w'.proc c).vmas := hlay.sub fun j x hx ↦ by
        rw [← hproc p hpc]
        exact hsub' j x hx
      refine ⟨h.views rfl (World.owns_congr rfl rfl hkstack) rfl hkstack ?_ ?_ rfl,
        hproc p hpc, hsub'⟩
      · intro q n y hy _
        by_cases hq : q = c
        · subst hq
          unfold World.place at hy ⊢
          rw [Option.bind_eq_some_iff] at hy ⊢
          obtain ⟨x, hx, hy⟩ := hy
          exact ⟨x, hlay'.view_mono hgrow hx, hy⟩
        · unfold World.place at hy ⊢
          rwa [hproc q hq]
      · intro q n n' o j j' hj hj'
        by_cases hq : q = c
        · -- the child's places are the parent's
          subst hq
          have hparent : ∀ m y, w'.place q m = some y → w.place p m = some y := by
            intro m y hy
            unfold World.place at hy ⊢
            rw [Option.bind_eq_some_iff] at hy ⊢
            obtain ⟨x, hx, hy⟩ := hy
            refine ⟨x, hlay.view_mono (fun k z hz ↦ ?_) hx, hy⟩
            rw [← hproc p hpc]
            exact hsub' k z hz
          exact h.base p n n' o j j' (hparent n _ hj) (hparent n' _ hj')
        · unfold World.place at hj hj'
          rw [hproc q hq] at hj hj'
          exact h.base q n n' o j j' hj hj'
    apply hset.mono
    rintro _ w1 ⟨h1, hp1, hsub1⟩
    apply ((mmapObjectGet_tally h1 v.object).and (mmapObjectGet_tab w1 v.object)).mono
    rintro _ w2 ⟨h2, htab⟩
    refine ⟨h2, by rw [htab.proc, hp1], ?_⟩
    unfold Inherited
    rw [htab.proc]
    exact hsub1

/-- The first loop of `vma_fork`. -/
theorem forkSlots_tally (h : Tally ct fr hs w) {p c : P} (hpc : p ≠ c)
    (hlay : Layout (w.proc p).sz (w.proc p).vmas) (hsub : Inherited p c w) :
    Ensures (forEach (forkSlot p c) slots) w fun _ w' ↦ Tally ct fr hs w' := by
  refine (ensures_forEach (fun _ w' ↦ Tally ct fr hs w' ∧ w'.proc p = w.proc p ∧
    Inherited p c w') ?_
    ⟨h, rfl, hsub⟩).mono fun _ _ h' ↦ h'.1
  rintro i left w1 ⟨h1, hp1, hsub1⟩
  have hlay1 : Layout (w1.proc p).sz (w1.proc p).vmas := by rwa [hp1]
  apply (forkSlot_tally h1 hpc i hlay1 hsub1).mono
  rintro _ w2 ⟨h2, hp2, hsub2⟩
  exact ⟨h2, hp2.trans hp1, hsub2⟩

section

variable [Fintype P] (hP : Fintype.card P ≤ nproc) {p c : P} (hpc : p ≠ c)

include hP hpc

omit [DecidableEq O]

omit [Fintype P] hP hpc in
/-- Entries go into the kernel table of either process. -/
theorem Shares.sync (h : Tally ct fr hs w) (hheir : Heir p c w) {q : P}
    (hk : w.there (.kern q) = true) {n : Nat} (hn : UserPage n) :
    Ensures (upg2ukpg (.user q) (.kern q) [n]) w fun _ w' ↦ Shares ct fr hs p c w w' := by
  have hns : ∀ m ∈ [n], UserPage m := by
    intro m hm
    rwa [List.mem_singleton.mp hm]
  apply ((upg2ukpg_spec w (by simp) [n]).and (upg2ukpg_tally h (.user q) [n] hk hns)).mono
  rintro ok w' ⟨⟨ms, heff, -⟩, h', hobj, -⟩
  refine ⟨h', ⟨by rw [heff.core.there, hheir.user], by rw [heff.core.there, hheir.image], ?_⟩, hobj,
    heff.core.proc, heff.core.there⟩
  rw [heff.leaf, Leaves.copy_ne _ (by simp), Leaves.copy_ne _ (by simp)]
  exact hheir.same

/-- A round of the inner loop of `vma_fork`. -/
theorem forkPage_tally (h : Tally ct fr hs w) (hroom : ∀ x, hs.count x < nproc) (v : Vma O)
    {n : Nat}
    (hn : UserPage n) (hheir : Heir p c w) (hkp : w.there (.kern p) = true)
    (hkc : w.there (.kern c) = true)
    (hplace : ∀ b, w.place p n = some b → w.place c n = some b) :
    Ensures (forkPage p c v n) w fun _ w' ↦ Shares ct fr hs p c w w' := by
  have hmap : ∀ {w1 : World P O F} {e : Pte}, Shares ct fr hs p c w w1 →
      w1.leaf (.user p) n = some e → ∀ perm, Ensures (do
        if ← mappages (.user c) n e.pa perm then
          kaddquota e.pa
          if ← upg2ukpg (.user c) (.kern c) [n] then pure true
          else Prog.halt "vma_fork: child upg2ukpg"
        else
          pure false) w1 fun _ w' ↦ Shares ct fr hs p c w w' := by
    intro w1 e h1 he perm
    have hplace1 : ∀ b, w1.place p n = some b → w1.place c n = some b := by
      rw [World.place_congr fun q ↦ congrArg (fun f ↦ (f q).vmas) h1.proc]
      exact hplace
    apply (mapHeir_tally hP h1.tally hroom hpc hn h1.heir he hplace1 perm).bind
    intro ok w2 h2
    rw [ensures_ite, ensures_pure]
    constructor
    · intro hok
      rw [if_pos hok] at h2
      apply h2.bind
      intro _ w3 h3
      have hk3 : w3.there (.kern c) = true := by rw [h3.there, h1.there, hkc]
      apply (Shares.sync h3.tally h3.heir hk3 hn).bind
      intro ok w4 h4
      rw [ensures_ite, ensures_pure]
      exact ⟨fun _ ↦ (h1.trans h3).trans h4, fun _ ↦ ensures_halt⟩
    · intro hok
      rw [if_neg hok] at h2
      exact h1.trans h2
  have hself : Shares ct fr hs p c w w := ⟨h, hheir, rfl, rfl, fun _ ↦ rfl⟩
  unfold forkPage
  apply (walk_spec w _ n).bind
  rintro r w0 ⟨rfl, hr⟩
  cases r with
  | none =>
    rw [ensures_pure]
    exact hself
  | some e =>
    have he : w0.leaf (.user p) n = some e := hr.symm
    dsimp only
    rw [ensures_bind, ensures_doIf]
    generalize (if v.flags.testBit 1 = true ∧ e.perm.w = true then e.perm.share else e.perm) = perm
    refine ⟨fun _ ↦ ?_, fun _ ↦ hmap hself he _⟩
    unfold forkMark
    apply (setLeaf_eq w0 _ n _).bind
    rintro _ _ rfl
    have hmark : Shares ct fr hs p c w0 (w0.putEntry (.user p) n (some ⟨e.pa, perm⟩)) :=
      .mark h hheir hpc he rfl
    have he1 : (w0.putEntry (.user p) n (some ⟨e.pa, perm⟩)).leaf (.user p) n =
        some ⟨e.pa, perm⟩ := by
      rw [(w0.putEntry_eff _ _ _).leaf, Leaves.put_same, update_self]
    apply ((upg2ukpg_spec _ (by simp) [n]).and
      (Shares.sync hmark.tally hmark.heir ((hmark.there _).trans hkp) hn)).bind
    rintro ok w2 ⟨⟨ms, heff, -⟩, h2⟩
    rw [ensures_ite, ensures_pure]
    refine ⟨fun _ ↦ hmap (e := ⟨e.pa, perm⟩) (hmark.trans h2) ?_ _, fun _ ↦ ensures_halt⟩
    rw [heff.leaf, Leaves.copy_ne _ (by simp), he1]

/-- A round of the second loop of `vma_fork`. -/
theorem forkPages_tally (h : Tally ct fr hs w) (hroom : ∀ x, hs.count x < nproc) (i : Fin nvma)
    (hheir : Heir p c w) (hkp : w.there (.kern p) = true) (hkc : w.there (.kern c) = true)
    (hlay : Layout (w.proc p).sz (w.proc p).vmas) (hvmas : (w.proc c).vmas = (w.proc p).vmas) :
    Ensures (forkPages p c i) w fun _ w' ↦ Shares ct fr hs p c w w' := by
  have hself : Shares ct fr hs p c w w := ⟨h, hheir, rfl, rfl, fun _ ↦ rfl⟩
  unfold forkPages
  rw [ensures_bind, ensures_get]
  split
  · rw [ensures_pure]
    exact hself
  · rename_i v hv
    have hok := hlay.ok i v hv
    have hfin : v.fin ≤ maxuva := hok.fin_le.trans (by decide)
    simp only [ensures_bind, ensures_pure]
    refine (ensures_stopAt
      (fun left w' ↦ left ⊆ pages v.start v.fin ∧ Shares ct fr hs p c w w')
      (fun _ _ w' ↦ Shares ct fr hs p c w w') ?_ ⟨fun _ hn ↦ hn, hself⟩).mono ?_
    · rintro n left w1 ⟨hsub, h1⟩
      have hn := hsub List.mem_cons_self
      have hplace1 : ∀ b, w1.place p n = some b → w1.place c n = some b := by
        intro b hb
        unfold World.place at hb ⊢
        rwa [h1.proc, hvmas, ← h1.proc]
      apply (forkPage_tally hP hpc h1.tally hroom v (userPage_of_mem_pages hok.start_mod hfin hn)
        h1.heir (by rw [h1.there, hkp]) (by rw [h1.there, hkc]) hplace1).mono
      intro ok w2 h2
      cases ok with
      | false => exact h1.trans h2
      | true => exact ⟨fun m hm ↦ hsub (List.mem_cons_of_mem n hm), h1.trans h2⟩
    · intro r w1 h1
      cases r with
      | none => exact h1.2
      | some n =>
        obtain ⟨_, -, h1⟩ := h1
        exact h1

variable [DecidableEq O] [DecidableEq F]

/-- `vma_fork`: the child ends with the mappings of the parent or with none. -/
theorem vmaFork_tally (h : Tally ct fr hs w) (hroom : ∀ x, hs.count x < nproc)
    (hheir : Heir p c w) (hkp : w.there (.kern p) = true) (hkc : w.there (.kern c) = true)
    (hlay : Layout (w.proc p).sz (w.proc p).vmas) (hsz : (w.proc c).sz = (w.proc p).sz)
    (hnone : ∀ i, (w.proc c).vmas i = none) (hobjs : NoObjects ct)
    (hct : ∀ n, ct (.user c n) = none) :
    Ensures (vmaFork p c) w fun ok w' ↦ Tally ct fr hs w' ∧
      (∃ vmas, w'.proc = update w.proc c { w.proc c with vmas := vmas } ∧
        Layout (w.proc p).sz vmas) ∧
      (∀ t, w'.there t = w.there t) ∧ (ok = true → Heir p c w') := by
  have hinherited : Inherited p c w := by
    intro i v hv
    rw [hnone] at hv
    cases hv
  unfold vmaFork
  apply ((forkSlots_spec hpc hnone).and (forkSlots_tally h hpc hlay hinherited)).bind
  rintro _ w1 ⟨hslots, h1⟩
  have hp1 : w1.proc p = w.proc p := by rw [hslots.proc, update_of_ne hpc]
  have hc1 : w1.proc c = { w.proc c with vmas := (w.proc p).vmas } := by
    rw [hslots.proc, update_self]
  have hlay1 : Layout (w1.proc p).sz (w1.proc p).vmas := by rwa [hp1]
  have hleaf1 : w1.leaf = w.leaf := by rw [hslots.leaf, Leaves.unmap_nil]
  have hheir1 : Heir p c w1 := by
    refine ⟨by rw [hslots.there, hheir.user], by rw [hslots.there, hheir.image], ?_⟩
    rw [hleaf1]
    exact hheir.same
  refine (ensures_stopAt (fun _ w' ↦ Shares ct fr hs p c w1 w')
    (fun _ _ w' ↦ Shares ct fr hs p c w1 w') ?_ ⟨h1, hheir1, rfl, rfl, fun _ ↦ rfl⟩).bind ?_
  · intro i left w2 h2
    have hkp2 : w2.there (.kern p) = true := by rw [h2.there, hslots.there, hkp]
    have hkc2 : w2.there (.kern c) = true := by rw [h2.there, hslots.there, hkc]
    have hlay2 : Layout (w2.proc p).sz (w2.proc p).vmas := by rwa [h2.proc]
    have hvmas2 : (w2.proc c).vmas = (w2.proc p).vmas := by rw [h2.proc, hc1, hp1]
    apply (forkPages_tally hP hpc h2.tally hroom i h2.heir hkp2 hkc2 hlay2 hvmas2).mono
    intro ok w3 h3
    cases ok with
    | false => exact h2.trans h3
    | true => exact h2.trans h3
  · intro r w2 h2
    cases r with
    | none =>
      rw [ensures_pure]
      refine ⟨h2.tally, ⟨(w.proc p).vmas, ?_, hlay⟩, fun t ↦ ?_, fun _ ↦ h2.heir⟩
      · rw [h2.proc, hslots.proc]
      · rw [h2.there, hslots.there]
    | some i =>
      obtain ⟨_, -, h2⟩ := h2
      have hc2 : w2.proc c = { w.proc c with vmas := (w.proc p).vmas } := by rw [h2.proc, hc1]
      have hkc2 : w2.there (.kern c) = true := by rw [h2.there, hslots.there, hkc]
      have hlay2 : Layout (w2.proc c).sz (w2.proc c).vmas := by
        rw [hc2]
        dsimp only
        rwa [hsz]
      apply ((vmaDestroyAll_spec w2 c h2.heir.user hkc2).and
        (vmaDestroyAll_tally hP h2.tally hlay2 (.inl ⟨h2.heir.user, hkc2⟩) hobjs hct)).bind
      rintro _ w3 ⟨⟨ns, hslots3, -⟩, h3⟩
      rw [ensures_pure]
      refine ⟨h3, ⟨fun _ ↦ none, ?_, .empty _⟩, fun t ↦ ?_, nofun⟩
      · rw [hslots3.proc, hc2, h2.proc, hslots.proc, update_idem]
      · rw [hslots3.there, h2.there, hslots.there]

/-! ### The whole of `fork` that can fail -/

omit [DecidableEq P] [DecidableEq O] [DecidableEq F] [Fintype P] hP hpc in
/-- The pages outside of the mappings are no pages of objects. -/
theorem World.place_none (hlay : Layout (w.proc p).sz (w.proc p).vmas) {n : Nat}
    (hn : n * pgsize < pgroundup (w.proc p).sz ∨ userStackStart ≤ n * pgsize) :
    w.place p n = none := by
  have hview : view (w.proc p).vmas n = none := by
    rw [Option.eq_none_iff_forall_ne_some]
    intro x hx
    obtain ⟨i, v, hv, hc, -⟩ := hlay.view_eq_some.mp hx
    rw [Vma.contains_iff] at hc
    have habove := hlay.above i v hv
    have hfin := (hlay.ok i v hv).fin_le
    have hstack : mmapTop ≤ userStackStart := by decide
    omega
  unfold World.place
  rw [hview]
  rfl

/-- What the parts of `fork` that can fail set in the child. -/
structure Filled (p c : P) (w w' : World P O F) : Prop where
  proc : ∃ sz vmas, w'.proc = update w.proc c { w.proc c with sz := sz, vmas := vmas } ∧
    (sz = (w.proc c).sz ∨ sz = (w.proc p).sz) ∧ Layout sz vmas
  there : ∀ t, w'.there t = w.there t

/-- The parts of `fork` that can fail. -/
theorem forkCopy_tally (h : Tally ct fr hs w) (hroom : ∀ x, hs.count x < nproc)
    (hlay : Layout (w.proc p).sz (w.proc p).vmas) (hsz : (w.proc p).sz ≤ maxuva)
    (hborn : Newborn c w) (hi : w.there (.image c) = false) (hkp : w.there (.kern p) = true)
    (hobjs : NoObjects ct) (hct : ∀ n, ct (.user c n) = none) :
    Ensures (forkCopy p c) w fun _ w' ↦ Tally ct fr hs w' ∧ Filled p c w w' := by
  have hnone : (w.proc c).vmas = fun _ ↦ none := funext hborn.vmas
  have hheir : Heir p c w := by
    refine ⟨hborn.user.there, hi, fun n e' hn he' ↦ ?_⟩
    rw [hborn.user.leaf n hn] at he'
    cases he'
  have hself : update w.proc c { w.proc c with vmas := fun _ ↦ none } = w.proc := by
    rw [← hnone]
    exact update_eq_self c w.proc
  have hplace : ∀ {w' : World P O F}, (∀ q, (w'.proc q).vmas = (w.proc q).vmas) → ∀ n,
      n * pgsize < pgroundup (w.proc p).sz ∨ userStackStart ≤ n * pgsize →
      ∀ b, w'.place p n = some b → w'.place c n = some b := by
    intro w' hvmas n hn b hb
    rw [World.place_congr hvmas, World.place_none hlay hn] at hb
    cases hb
  unfold forkCopy
  rw [ensures_bind, ensures_get, ensures_bind]
  apply (uvmcopyRange_tally hP hpc h hroom (Nat.zero_mod _) hsz hheir
    (fun n hn ↦ hplace (fun _ ↦ rfl) n (.inl ?_)) hct).mono
  swap
  · exact ((mem_pages (Nat.zero_mod _)).mp hn).2.trans_le (le_pgroundup _)
  rintro ok w1 ⟨h1, -, hproc1, hthere1, hheir1⟩
  rw [ensures_ite, ensures_pure]
  refine ⟨fun hok ↦ ?_, fun _ ↦ ⟨h1, ⟨(w.proc c).sz, fun _ ↦ none, ?_, .inl rfl, .empty _⟩,
    hthere1⟩⟩
  swap
  · rw [hproc1, hself]
  have hheir1 := hheir1 hok
  have hset : Ensures (setProc c fun q ↦ { q with sz := (w.proc p).sz }) w1 fun _ w' ↦
      Tally ct fr hs w' ∧ Heir p c w' ∧
        w'.proc = update w.proc c { w.proc c with sz := (w.proc p).sz } ∧
        ∀ t, w'.there t = w.there t := by
    unfold setProc
    rw [ensures_modify]
    set w' : World P O F := { w1 with
      proc := update w1.proc c { w1.proc c with sz := (w.proc p).sz } } with hw'
    have hsame : ∀ q, (w'.proc q).kstack = (w1.proc q).kstack ∧
        (w'.proc q).vmas = (w1.proc q).vmas := by
      intro q
      by_cases hq : q = c
      · rw [hq, show w'.proc c = _ from update_self ..]
        exact ⟨rfl, rfl⟩
      · rw [show w'.proc q = _ from update_of_ne hq ..]
        exact ⟨rfl, rfl⟩
    refine ⟨h1.alike ⟨rfl, rfl, fun q ↦ (hsame q).1, fun q ↦ (hsame q).2⟩ rfl rfl,
      ⟨hheir1.user, hheir1.image, hheir1.same⟩, ?_, hthere1⟩
    rw [hw', hproc1]
  apply hset.bind
  rintro _ w2 ⟨h2, hheir2, hproc2, hthere2⟩
  have hp2 : w2.proc p = w.proc p := by rw [hproc2, update_of_ne hpc]
  have hc2 : w2.proc c = { w.proc c with sz := (w.proc p).sz } := by
    rw [hproc2, update_self]
  have hvmas2 : ∀ q, (w2.proc q).vmas = (w.proc q).vmas := by
    intro q
    by_cases hq : q = c
    · rw [hq, hc2]
    · rw [hproc2, update_of_ne hq]
  apply (uvmcopyRange_tally hP hpc h2 hroom (by decide) le_rfl hheir2
    (fun n hn ↦ hplace hvmas2 n (.inr ?_)) hct).bind
  swap
  · exact ((mem_pages (by decide)).mp hn).1
  rintro ok w3 ⟨h3, -, hproc3, hthere3, hheir3⟩
  have hthere03 : ∀ t, w3.there t = w.there t := fun t ↦ (hthere3 t).trans (hthere2 t)
  rw [ensures_ite, ensures_pure]
  refine ⟨fun hok ↦ ?_, fun _ ↦ ⟨h3, ⟨(w.proc p).sz, fun _ ↦ none, ?_, .inr rfl, .empty _⟩,
    hthere03⟩⟩
  swap
  · rw [hproc3, hproc2, ← hnone]
  have hc3 : w3.proc c = { w.proc c with sz := (w.proc p).sz } := by rw [hproc3, hc2]
  have hp3 : w3.proc p = w.proc p := by rw [hproc3, hp2]
  apply (vmaFork_tally hP hpc h3 hroom (hheir3 hok) (by rw [hthere03, hkp])
    (by rw [hthere03, hborn.kern.there]) (by rwa [hp3]) (by rw [hc3, hp3])
    (fun i ↦ by rw [hc3, ← hborn.vmas i]) hobjs hct).bind
  rintro ok w4 ⟨h4, ⟨vmas, hproc4, hlay4⟩, hthere4, -⟩
  have hthere04 : ∀ t, w4.there t = w.there t := fun t ↦ (hthere4 t).trans (hthere03 t)
  have hproc04 : w4.proc =
      update w.proc c { w.proc c with sz := (w.proc p).sz, vmas := vmas } := by
    rw [hproc4, hc3, hproc3, hproc2, update_idem]
  rw [hp3] at hlay4
  have hdone : ∀ w' : World P O F, w'.proc = w4.proc → (∀ t, w'.there t = w4.there t) →
      Filled p c w w' := fun w' hproc hthere ↦
    ⟨⟨_, vmas, hproc.trans hproc04, .inr rfl, hlay4⟩, fun t ↦ (hthere t).trans (hthere04 t)⟩
  have hsync : ∀ {w' : World P O F} (ns : List Nat), Tally ct fr hs w' → w'.proc = w4.proc →
      (∀ t, w'.there t = w4.there t) → (∀ n ∈ ns, UserPage n) →
      Ensures (upg2ukpg (.user c) (.kern c) ns) w' fun _ w'' ↦ Tally ct fr hs w'' ∧
        w''.proc = w4.proc ∧ ∀ t, w''.there t = w4.there t := by
    intro w' ns h' hproc' hthere' hns
    have hk : w'.there (.kern c) = true := by rw [hthere', hthere04, hborn.kern.there]
    apply ((upg2ukpg_spec w' (by simp) ns).and (upg2ukpg_tally h' (.user c) ns hk hns)).mono
    rintro ok w'' ⟨⟨ms, heff, -⟩, h'', -⟩
    exact ⟨h'', by rw [heff.core.proc, hproc'], fun t ↦ by rw [heff.core.there, hthere']⟩
  rw [ensures_ite, ensures_pure]
  refine ⟨fun _ ↦ ?_, fun _ ↦ ⟨h4, hdone w4 rfl fun _ ↦ rfl⟩⟩
  apply (hsync (pages 0 (w.proc p).sz) h4 rfl (fun _ ↦ rfl)
    fun n hn ↦ userPage_of_mem_pages (Nat.zero_mod _) hsz hn).bind
  rintro ok w5 ⟨h5, hproc5, hthere5⟩
  rw [ensures_ite, ensures_pure]
  refine ⟨fun _ ↦ ?_, fun _ ↦ ⟨h5, hdone w5 hproc5 hthere5⟩⟩
  apply (hsync stackPages h5 hproc5 hthere5
    fun n hn ↦ userPage_of_mem_pages (by decide) le_rfl hn).mono
  rintro ok w6 ⟨h6, hproc6, hthere6⟩
  exact ⟨h6, hdone w6 hproc6 hthere6⟩

omit [DecidableEq O] [DecidableEq F] [Fintype P] hP hpc in
/-- The parent's kernel table after its user entries were marked. -/
theorem forkSync_tally (h : Tally ct fr hs w) (hkp : w.there (.kern p) = true)
    (hsz : (w.proc p).sz ≤ maxuva) :
    Ensures (forkSync p) w fun _ w' ↦ Tally ct fr hs w' ∧ w'.obj = w.obj ∧ w'.proc = w.proc ∧
      ∀ t, w'.there t = w.there t := by
  have hsync : ∀ {w' : World P O F} (ns : List Nat), Tally ct fr hs w' → w'.obj = w.obj →
      w'.proc = w.proc → (∀ t, w'.there t = w.there t) → (∀ n ∈ ns, UserPage n) →
      Ensures (upg2ukpg (.user p) (.kern p) ns) w' fun _ w'' ↦ Tally ct fr hs w'' ∧
        w''.obj = w.obj ∧ w''.proc = w.proc ∧ ∀ t, w''.there t = w.there t := by
    intro w' ns h' hobj' hproc' hthere' hns
    apply ((upg2ukpg_spec w' (by simp) ns).and
      (upg2ukpg_tally h' (.user p) ns ((hthere' _).trans hkp) hns)).mono
    rintro ok w'' ⟨⟨ms, heff, -⟩, h'', hobj'', -⟩
    exact ⟨h'', hobj''.trans hobj', by rw [heff.core.proc, hproc'],
      fun t ↦ by rw [heff.core.there, hthere']⟩
  unfold forkSync uvmStackSync
  rw [ensures_bind, ensures_get, ensures_bind]
  apply (hsync _ h rfl rfl (fun _ ↦ rfl)
    fun n hn ↦ userPage_of_mem_pages (Nat.zero_mod _) hsz hn).mono
  rintro ok w1 ⟨h1, hobj1, hproc1, hthere1⟩
  rw [ensures_ite]
  refine ⟨fun _ ↦ ?_, fun _ ↦ ensures_halt⟩
  apply (hsync stackPages h1 hobj1 hproc1 hthere1
    fun n hn ↦ userPage_of_mem_pages (by decide) le_rfl hn).bind
  intro ok w2 h2
  rw [ensures_ite, ensures_pure]
  exact ⟨fun _ ↦ h2, fun _ ↦ ensures_halt⟩

end

end Xv6K210.Vm
