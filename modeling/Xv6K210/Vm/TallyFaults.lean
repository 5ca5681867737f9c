import Xv6K210.Vm.Spaces
import Xv6K210.Vm.TallyObjects

/-!
# Faults in the tally

A page fault maps one page at most. Whatever allocation fails on the way, the page
that was brought is freed again, and a page that was copied gives up one owner.
-/

namespace Xv6K210.Vm

open Xv6K210.Base Prog

variable {P O F : Type} [DecidableEq P] {ct : Owner P O → Option (Nat → UInt8)}
  {fr : P → Option Nat}
  {hs : List Nat} {w : World P O F}

/-- An entry takes a page in hand that nobody else has, and gives up the one that it had. -/
theorem Tally.putEntry_move {pa : Nat} (h : Tally ct fr (pa :: hs) w) {t : Tbl P} {n : Nat}
    {e : Pte}
    (howned : w.Owned t n) (he : w.leaf t n = some e) (hthere : w.there t = true)
    (hone : w.quota pa = 1) (hroom : hs.count e.pa < nproc) (perm : Perm)
    (hct : ct (t.entry n) = none) :
    Tally ct fr (e.pa :: hs) (w.putEntry t n (some ⟨pa, perm⟩)) := by
  have howns : w.owns fr (t.entry n) = some e.pa := by
    rw [howned.owns, he]
    rfl
  have hne : e.pa ≠ pa := by
    intro heq
    rw [heq] at howns
    exact h.fresh hone _ howns
  have hroot : ∀ t', (t.entry n : Owner P O) ≠ .root t' := fun t' ↦ by cases t <;> nofun
  have hgave : Tally ct fr (pa :: e.pa :: hs) (w.putEntry t n none) := by
    refine h.lose (fun z hz ↦ howned.putEntry_of_ne none hz) howns (howned.putEntry none) hroot
      (fun c ↦ ?_) (fun c ↦ ?_) h.keyed rfl h.stack hct fun _ _ ↦ rfl
    · have hfew := h.few c
      rw [List.count_cons] at hfew ⊢
      rw [List.count_cons]
      by_cases hc : e.pa = c
      · subst hc
        rw [if_pos (beq_self_eq_true _), if_neg (by rw [beq_iff_eq]; exact Ne.symm hne)]
        omega
      · rw [if_neg (by rw [beq_iff_eq]; exact hc)]
        exact hfew
    · change w.quota c + _ + _ = w.quota c + _
      simp only [List.count_cons, List.count_nil]
      omega
  refine hgave.gain_fresh hone (fun z hz ↦ ?_) (howned.putEntry none) (howned.putEntry _) rfl ?_
    h.keyed rfl h.stack rfl
  · rw [howned.putEntry_of_ne _ hz, howned.putEntry_of_ne _ hz]
  · intro t' ht'
    rw [t.table_entry] at ht'
    cases ht'
    refine .inr ?_
    rw [howned.putEntry_of_ne none (Ne.symm (hroot t))]
    exact World.there_root hthere

/-- The page that it takes may hold the same. -/
theorem Tally.putEntry_swap {pa : Nat} (h : Tally ct fr (pa :: hs) w) {t : Tbl P} {n : Nat}
    {e : Pte}
    (howned : w.Owned t n) (he : w.leaf t n = some e) (hthere : w.there t = true)
    (hone : w.quota pa = 1) (hroom : hs.count e.pa < nproc) (perm : Perm)
    (hmem : w.mem pa = w.mem e.pa) :
    Tally ct fr (e.pa :: hs) (w.putEntry t n (some ⟨pa, perm⟩)) := by
  classical
  have howns : w.owns fr (t.entry n) = some e.pa := by
    rw [howned.owns, he]
    rfl
  let rest : Owner P O → Option (Nat → UInt8) := Function.update ct (t.entry n) none
  have hrest : Tally rest fr (pa :: hs) w := by
    refine h.weaken fun x m hx ↦ ?_
    by_cases hxt : x = t.entry n
    · simp [rest, hxt] at hx
    · simpa [rest, hxt] using hx
  have hmoved := hrest.putEntry_move howned he hthere hone hroom perm (by simp [rest])
  refine hmoved.known_again fun x m hx ↦ ?_
  by_cases hxt : x = t.entry n
  · subst hxt
    obtain ⟨c, hc, rfl⟩ := h.kept _ m hx
    rw [howns] at hc
    cases hc
    exact ⟨pa, howned.putEntry _, hmem⟩
  · exact hmoved.kept x m (by simpa [rest, hxt] using hx)

section

variable [Fintype P] (hP : Fintype.card P ≤ nproc)

include hP

/-! ### The heap and the stack -/

private theorem uvmFaultAlloc_tally (h : Tally ct fr hs w) {p : P} (hu : w.there (.user p) = true)
    (hk : w.there (.kern p) = true) (n : Nat) (perm : Perm) :
    Ensures (uvmFaultAlloc p n perm) w fun _ w' ↦ Tally ct fr hs w' := by
  unfold uvmFaultAlloc
  simp only [ensures_ite, ensures_pure, ensures_bind]
  refine ⟨fun _ ↦ h, fun hn ↦ ?_⟩
  have hn : UserPage n := Nat.lt_of_not_le hn
  apply (walk_spec w (.user p) n).mono
  rintro r w0 ⟨rfl, hleaf⟩
  split
  · rw [ensures_pure]
    exact h
  · have hct : ct (.user p n) = none := h.ct_none (World.owns_user_none hleaf.symm)
    apply (kallocPage_tally h).bind
    rintro r w1 ⟨hq1, hs1, hr⟩
    cases r with
    | none =>
      rw [ensures_pure]
      exact hr
    | some pa =>
      obtain ⟨h1, -, hone⟩ := hr
      simp only [ensures_bind]
      apply (zeroPage_tally h1 hone).mono
      rintro _ w2 ⟨hq2, hquota2, h2⟩
      have hthere2 : ∀ t, w2.there t = w0.there t := fun t ↦ (hq1.trans hq2).core.there t
      have hone2 : w2.quota pa = 1 := by rw [hquota2, hone]
      have hu2 : w2.there (.user p) = true := by rw [hthere2, hu]
      refine ((mappages_spec w2 (.user p) n pa perm).and
        (mappages_fresh h2 perm hu2 (show w2.Owned (.user p) n from hn) hone2)).mono ?_
      rintro b w3 ⟨hspec, h3⟩
      rw [ensures_ite]
      refine ⟨fun hb ↦ ?_, fun hb ↦ ?_⟩
      · rw [if_pos hb] at h3
        obtain ⟨-, -, heff3⟩ := hspec.resolve_right (by simp [hb])
        have hk3 : w3.there (.kern p) = true := by rw [heff3.core.there, hthere2, hk]
        apply (vmSyncUserPage_tally h3 n hk3).bind
        rintro b w4 ⟨h4, -, -⟩
        simp only [ensures_ite, ensures_bind, ensures_pure]
        refine ⟨fun _ ↦ h4, fun _ ↦ ?_⟩
        have hone : ∀ m ∈ [n], UserPage m ∧ ct ((Tbl.user p).entry m) = none := by
          intro m hm
          rw [List.mem_singleton] at hm
          rw [hm]
          exact ⟨hn, hct⟩
        exact (uvmunmap_process hP (t := .user p) trivial h4 (fun m hm ↦ (hone m hm).1)
          fun m hm ↦ (hone m hm).2).mono fun _ _ h5 ↦ h5.1
      · rw [if_neg hb] at h3
        simp only [ensures_bind, ensures_pure]
        exact (kfreePage_tally hP h3).mono fun _ _ h4 ↦ h4.2

private theorem uvmcowmalloc_tally (h : Tally ct fr hs w) (hroom : ∀ c, hs.count c < nproc) {p : P}
    (hu : w.there (.user p) = true) (hk : w.there (.kern p) = true) (n : Nat) :
    Ensures (uvmcowmalloc p n) w fun _ w' ↦ Tally ct fr hs w' := by
  unfold uvmcowmalloc
  apply (walk_spec w (.user p) n).bind
  rintro r w0 ⟨rfl, rfl⟩
  cases he : w0.leaf (.user p) n with
  | none =>
    rw [ensures_pure]
    exact h
  | some e =>
    simp only [ensures_ite, ensures_pure, ensures_bind, ensures_get]
    refine ⟨fun _ ↦ h, fun hn ↦ ⟨fun _ ↦ ?_, fun _ ↦ ?_⟩⟩
    · apply (setLeaf_eq w0 (.user p) n _).mono
      rintro _ _ rfl
      have hthere := (w0.putEntry_eff (.user p) n
        (some ⟨e.pa, { e.perm with w := true, cow := false }⟩)).core.there
      have h1 : Tally ct fr hs (w0.putEntry (.user p) n
          (some ⟨e.pa, { e.perm with w := true, cow := false }⟩)) :=
        h.putEntry_same (t := .user p) trivial he rfl
      have hk1 := (hthere (.kern p)).trans hk
      apply (vmSyncUserPage_tally h1 n hk1).mono
      rintro b w2 ⟨h2, -, -⟩
      exact ⟨fun _ ↦ h2, fun _ ↦ ensures_halt⟩
    · apply (kallocPage_tally h).mono
      rintro r w1 ⟨hq1, hs1, hr⟩
      cases r with
      | none =>
        rw [ensures_pure]
        exact hr
      | some pa =>
        obtain ⟨h1, -, hone⟩ := hr
        simp only [ensures_bind, ensures_ite, ensures_pure]
        apply (copyPage_tally h1 hone e.pa).mono
        rintro _ w2 ⟨hq2, hquota2, h2, hmem2⟩
        have hcopied : w2.mem pa = w2.mem e.pa := by
          rw [hmem2, Function.update_self, Function.update_apply, ite_self]
        have hthere2 : ∀ t, w2.there t = w0.there t := fun t ↦ (hq1.trans hq2).core.there t
        have howned : w2.Owned (.user p) n := by
          have := not_or.mp hn
          exact Nat.lt_of_not_le this.1
        apply (setLeaf_eq w2 (.user p) n _).mono
        rintro _ _ rfl
        have hthere := (w2.putEntry_eff (.user p) n
          (some ⟨pa, { e.perm with w := true, cow := false }⟩)).core.there
        have h3 := h2.putEntry_swap howned (by rw [hq2.leaf, hq1.leaf, he])
          ((hthere2 _).trans hu) (by rw [hquota2, hone]) (hroom e.pa)
          { e.perm with w := true, cow := false } hcopied
        have hk3 := (hthere (.kern p)).trans ((hthere2 _).trans hk)
        apply (vmSyncUserPage_tally h3 n hk3).mono
        rintro b w4 ⟨h4, -, -⟩
        refine ⟨fun _ ↦ ?_, fun _ ↦ ensures_halt⟩
        exact (kfreePage_tally hP h4).mono fun _ _ h5 ↦ h5.2

private theorem vmFaultPresent_tally (h : Tally ct fr hs w) (hroom : ∀ c, hs.count c < nproc)
    {p : P}
    (hu : w.there (.user p) = true) (hk : w.there (.kern p) = true) (n : Nat) (e : Pte)
    (access : Access) :
    Ensures (vmFaultPresent p n e access) w fun _ w' ↦ Tally ct fr hs w' := by
  unfold vmFaultPresent
  simp only [ensures_ite, ensures_pure, ensures_bind]
  refine ⟨fun _ ↦ ⟨fun _ ↦ h, fun _ ↦ ?_⟩, fun _ ↦ ⟨fun _ ↦ h, fun _ ↦ ?_⟩⟩
  · exact (uvmcowmalloc_tally hP h hroom hu hk n).mono fun _ _ h1 ↦ ⟨fun _ ↦ h1, fun _ ↦ h1⟩
  · exact (vmSyncUserPage_tally h n hk).mono fun _ _ h1 ↦ ⟨fun _ ↦ h1.1, fun _ ↦ h1.1⟩

/-! ### Mappings -/

variable [DecidableEq O]

/-- A page of a mapping that is missing is brought in. -/
theorem mmapFaultPage_tally (h : Tally ct fr hs w) (hroom : ∀ c, hs.count c < nproc) {p : P}
    (hu : w.there (.user p) = true) (hk : w.there (.kern p) = true) {v : Vma O} {n : Nat}
    (hn : UserPage n) (hview : view (w.proc p).vmas n = some (v.page n)) (access : Access) :
    Ensures (mmapFaultPage p v n access) w fun _ w' ↦ Tally ct fr hs w' := by
  unfold mmapFaultPage
  simp only [ensures_ite, ensures_pure, ensures_bind]
  refine ⟨fun _ ↦ h, fun _ ↦ ?_⟩
  apply (walk_spec w (.user p) n).mono
  rintro r w0 ⟨rfl, hleaf⟩
  split
  · rw [ensures_pure]
    exact h
  · have hct : ct (.user p n) = none := h.ct_none (World.owns_user_none hleaf.symm)
    simp only [ensures_ite, ensures_pure, ensures_bind]
    refine ⟨fun _ ↦ h, fun _ ↦ ?_⟩
    apply ((vmaFault_eff w0 v n).and (vmaFault_tally hP h hroom hview)).mono
    rintro r w1 ⟨heff1, hr⟩
    cases r with
    | none =>
      rw [ensures_pure]
      exact hr
    | some pa =>
      obtain ⟨h1, hb⟩ := hr
      have hu1 : w1.there (.user p) = true := by rw [heff1.core.there, hu]
      refine ((mappages_spec w1 (.user p) n pa v.perm).and
        (mappages_brings h1 v.perm hu1 hn hb)).bind ?_
      rintro b w2 ⟨hspec, h2⟩
      rw [ensures_ite]
      refine ⟨fun hb ↦ ?_, fun hb ↦ ?_⟩
      · rw [if_pos hb] at h2
        obtain ⟨-, -, heff2⟩ := hspec.resolve_right (by simp [hb])
        have hk2 : w2.there (.kern p) = true := by
          rw [heff2.core.there, heff1.core.there, hk]
        apply (vmSyncUserPage_tally h2 n hk2).bind
        rintro b w3 ⟨h3, -, -⟩
        simp only [ensures_ite, ensures_bind, ensures_pure]
        refine ⟨fun _ ↦ h3, fun _ ↦ ?_⟩
        have hone : ∀ m ∈ [n], UserPage m ∧ ct ((Tbl.user p).entry m) = none := by
          intro m hm
          rw [List.mem_singleton] at hm
          rw [hm]
          exact ⟨hn, hct⟩
        exact (uvmunmap_process hP (t := .user p) trivial h3 (fun m hm ↦ (hone m hm).1)
          fun m hm ↦ (hone m hm).2).mono fun _ _ h4 ↦ h4.1
      · rw [if_neg hb] at h2
        simp only [ensures_bind, ensures_pure]
        exact (kfreePage_tally hP h2).mono fun _ _ h3 ↦ h3.2

omit [DecidableEq P] [Fintype P] hP [DecidableEq O] in
/-- The mapping that is found at an address tells about its page. -/
theorem Layout.view_of_find {sz : Nat} {vmas : Fin nvma → Option (Vma O)} (h : Layout sz vmas)
    {address : Nat} {v : Vma O} (hv : (mmapVmaFind vmas address).bind vmas = some v) :
    view vmas (address / pgsize) = some (v.page (address / pgsize)) ∧
      UserPage (address / pgsize) := by
  obtain ⟨i, hfind, hi⟩ := Option.bind_eq_some_iff.mp hv
  obtain ⟨v', hi', hc⟩ := exists_of_mmapVmaFind hfind
  cases hi.symm.trans hi'
  rw [Vma.contains_iff] at hc
  have hok := h.ok i v hi
  have h1 := hok.start_mod
  have h2 := hok.fin_mod
  have h3 := hok.fin_le
  have hc' : v.start ≤ address / pgsize * pgsize ∧ address / pgsize * pgsize < v.fin := by
    unfold pgsize at *
    omega
  refine ⟨h.view_eq_some.mpr ⟨i, v, hi, Vma.contains_iff.mpr hc', rfl⟩, ?_⟩
  exact hc'.2.trans_le (h3.trans (by decide))

/-- A page fault keeps the tally. -/
theorem vmResolveFault_tally (h : Tally ct fr hs w) (hroom : ∀ c, hs.count c < nproc) {p : P}
    (halive : Alive w p) (address : Nat) (access : Access) :
    Ensures (vmResolveFault p address access) w fun _ w' ↦ Tally ct fr hs w' := by
  have hu := halive.user
  have hk := halive.kern
  have hpresent : ∀ e, Ensures (vmFaultPresent p (address / pgsize) e access) w
      fun _ w' ↦ Tally ct fr hs w' := fun e ↦ vmFaultPresent_tally hP h hroom hu hk _ e access
  have halloc : ∀ perm, Ensures (do
      if ← uvmFaultAlloc p (address / pgsize) perm then pure FaultResult.resolved
      else pure FaultResult.nomem) w fun _ w' ↦ Tally ct fr hs w' := by
    intro perm
    simp only [ensures_bind, ensures_ite, ensures_pure]
    exact (uvmFaultAlloc_tally hP h hu hk _ perm).mono fun _ _ h1 ↦ ⟨fun _ ↦ h1, fun _ ↦ h1⟩
  unfold vmResolveFault
  simp only [ensures_bind, ensures_get, ensures_ite, ensures_pure]
  refine ⟨fun _ ↦ h, fun hmax ↦ ?_⟩
  split
  · rename_i v hv
    obtain ⟨hview, hn⟩ := halive.space.layout.view_of_find hv
    simp only [ensures_ite, ensures_pure, ensures_bind]
    refine ⟨fun _ ↦ h, fun _ ↦ ?_⟩
    apply (walk_spec w (.user p) (address / pgsize)).mono
    rintro r w0 ⟨rfl, -⟩
    split
    · exact hpresent _
    · exact mmapFaultPage_tally hP h hroom hu hk hn hview access
  · simp only [ensures_ite, ensures_pure, ensures_bind]
    refine ⟨fun _ ↦ ?_, fun _ ↦ ⟨fun _ ↦ ?_, fun _ ↦ h⟩⟩
    · apply (walk_spec w (.user p) (address / pgsize)).mono
      rintro r w0 ⟨rfl, -⟩
      split
      · exact hpresent _
      · exact halloc _
    · apply (walk_spec w (.user p) (address / pgsize)).mono
      rintro r w0 ⟨rfl, -⟩
      split
      · exact hpresent _
      · exact halloc _

end

end Xv6K210.Vm
