import Xv6K210.Vm.Lifetime
import Xv6K210.Vm.TallyMaps

/-!
# New mappings in the tally

`mmap` makes an object first, then a mapping of it. No mapping refers to the new object
before, so a process has a page of it at one place only.
-/

namespace Xv6K210.Vm

open Xv6K210.Base Prog Function

variable {P O F : Type} [DecidableEq P] {ct : Owner P O → Option (Nat → UInt8)}
  {fr : P → Option Nat} {hs : List Nat} {w : World P O F}

/-! ### A mapping of a new object -/

omit [DecidableEq P] in
/-- The place of a page, read off the mapping that contains it. -/
theorem World.place_eq_some {p : P} {sz : Nat} (hlay : Layout sz (w.proc p).vmas) {n : Nat} {o : O}
    {k : Nat} : w.place p n = some (o, k) ↔ ∃ i v, (w.proc p).vmas i = some v ∧
      v.contains (n * pgsize) ∧ v.object = some o ∧ v.backing n / pgsize = k := by
  unfold World.place
  rw [Option.bind_eq_some_iff]
  constructor
  · rintro ⟨x, hx, ho⟩
    obtain ⟨i, v, hv, hc, rfl⟩ := hlay.view_eq_some.mp hx
    obtain ⟨o', ho', heq⟩ := Option.map_eq_some_iff.mp ho
    cases heq
    exact ⟨i, v, hv, hc, ho', rfl⟩
  · rintro ⟨i, v, hv, hc, ho, rfl⟩
    refine ⟨v.page n, hlay.view_eq_some.mpr ⟨i, v, hv, hc, rfl⟩, ?_⟩
    rw [show (v.page n).object = some o from ho]
    rfl

omit [DecidableEq P] in
/-- Pages of one mapping lie in the object as they lie in memory. -/
theorem Vma.backing_add {v : Vma O} (hstart : v.start % pgsize = 0) {n n' : Nat}
    (hn : v.contains (n * pgsize)) (hn' : v.contains (n' * pgsize)) :
    v.backing n / pgsize + n' = v.backing n' / pgsize + n := by
  rw [Vma.contains_iff] at hn hn'
  unfold Vma.backing
  unfold pgsize at *
  omega

/-- No mapping refers to the object. -/
def World.Unmapped (w : World P O F) (o : O) : Prop :=
  ∀ p i v, (w.proc p).vmas i = some v → v.object ≠ some o

/-- A slot without an object gets a mapping of an object that is not mapped. -/
theorem setVma_object {p : P} {i : Fin nvma} {v : Vma O} (h : Tally ct fr hs w) {sz : Nat}
    (hlay : Layout sz (w.proc p).vmas)
    (hlay' : Layout sz (update (w.proc p).vmas i (some v)))
    (hold : ∀ v0, (w.proc p).vmas i = some v0 → v0.object = none)
    (hnew : ∀ o, v.object = some o → w.Unmapped o) :
    Ensures (setVma p i (some v)) w fun _ w' ↦ Tally ct fr hs w' := by
  unfold setVma
  rw [ensures_modify]
  set w' : World P O F := { w with
    proc := update w.proc p
      { w.proc p with vmas := update (w.proc p).vmas i (some v) } } with hw'
  have hproc : ∀ q, q ≠ p → w'.proc q = w.proc q := fun q hq ↦ update_of_ne hq ..
  have hmine : w'.proc p = { w.proc p with vmas := update (w.proc p).vmas i (some v) } :=
    update_self ..
  have hkstack : ∀ q, (w'.proc q).kstack = (w.proc q).kstack := by
    intro q
    by_cases hq : q = p
    · rw [hq, hmine]
    · rw [hproc q hq]
  have hlay1 : Layout sz (w'.proc p).vmas := by
    rw [hmine]
    exact hlay'
  -- a place is an old one, or in the new mapping
  have hcases : ∀ n o k, w'.place p n = some (o, k) → w.place p n = some (o, k) ∨
      v.object = some o ∧ v.contains (n * pgsize) ∧ v.backing n / pgsize = k := by
    intro n o k hk
    obtain ⟨j, x, hx, hc, ho, hb⟩ := (World.place_eq_some hlay1).mp hk
    rw [hmine] at hx
    dsimp only at hx
    rw [update_apply] at hx
    split_ifs at hx with hj
    · cases hx
      exact .inr ⟨ho, hc, hb⟩
    · exact .inl ((World.place_eq_some hlay).mpr ⟨j, x, hx, hc, ho, hb⟩)
  have habsent : ∀ n o k, v.object = some o → w.place p n ≠ some (o, k) := by
    intro n o k ho hk
    obtain ⟨j, x, hx, -, ho', -⟩ := (World.place_eq_some hlay).mp hk
    exact hnew o ho p j x hx ho'
  refine h.views rfl (World.owns_congr rfl rfl hkstack) rfl hkstack ?_ ?_ rfl
  · intro q n y hy _
    by_cases hq : q = p
    · subst hq
      obtain ⟨o, k⟩ := y
      obtain ⟨j, x, hx, hc, ho, hb⟩ := (World.place_eq_some hlay).mp hy
      refine (World.place_eq_some hlay1).mpr ⟨j, x, ?_, hc, ho, hb⟩
      rw [hmine]
      dsimp only
      rw [update_of_ne, hx]
      rintro rfl
      rw [hold x hx] at ho
      cases ho
    · unfold World.place at hy ⊢
      rwa [hproc q hq]
  · intro q n n' o k k' hk hk'
    by_cases hq : q = p
    · subst hq
      rcases hcases n o k hk with hk | ⟨ho, hc, rfl⟩
      · rcases hcases n' o k' hk' with hk' | ⟨ho, -, -⟩
        · exact h.base q n n' o k k' hk hk'
        · exact absurd hk (habsent n o k ho)
      · rcases hcases n' o k' hk' with hk' | ⟨-, hc', rfl⟩
        · exact absurd hk' (habsent n' o k' ho)
        · have hslot : (w'.proc q).vmas i = some v := by
            rw [hmine]
            exact update_self ..
          exact Vma.backing_add (hlay1.ok i v hslot).start_mod hc hc'
    · unfold World.place at hk hk'
      rw [hproc q hq] at hk hk'
      exact h.base q n n' o k k' hk hk'

/-- `mmap_map_create`. -/
theorem mmapMapCreate_tally (h : Tally ct fr hs w) {p : P} (hspace : SpaceAt w p)
    (addr length prot flags : Nat) (type : VmaType) (object : Option O) (offset : Nat)
    (hnew : ∀ o, object = some o → w.Unmapped o) :
    Ensures (mmapMapCreate p addr length prot flags type object offset) w fun _ w' ↦
      Tally ct fr hs w' := by
  unfold mmapMapCreate
  simp only [ensures_bind, ensures_get, ensures_ite, ensures_pure]
  refine ⟨fun _ ↦ h, fun hargs ↦ ⟨fun _ ↦ h, fun _ ↦ ⟨fun _ ↦ h, fun _ ↦ ⟨fun _ ↦ h, fun _ ↦ ?_⟩⟩⟩⟩
  cases hfree : vmaFindFree (w.proc p).vmas with
  | none =>
    rw [ensures_pure]
    exact h
  | some i =>
    simp only [ensures_bind, ensures_ite, ensures_pure]
    refine ⟨fun _ ↦ h, fun hne ↦ ?_⟩
    have hi := vmaFindFree_none hfree
    have hlay := hspace.layout
    obtain ⟨h1, h2, h3, h4⟩ := vmaFindAddress_spec hlay (pgroundup_mod length) hne
    refine setVma_object h hlay (hlay.put (Vma.fresh_ok h1 (by omega) h3) h2
      fun j v' _ hv' ↦ h4 j v' hv') (fun v0 hv0 ↦ ?_) hnew
    rw [hi] at hv0
    cases hv0

/-- A slot changes in data that the places do not show. -/
theorem setVma_relabel_tally {p : P} {i : Fin nvma} {v v' : Vma O} (h : Tally ct fr hs w) {sz : Nat}
    (hlay : Layout sz (w.proc p).vmas) (hv : (w.proc p).vmas i = some v)
    (hlay' : Layout sz (update (w.proc p).vmas i (some v')))
    (hstart : v'.start = v.start) (hfin : v'.fin = v.fin) (hoffset : v'.offset = v.offset)
    (hobject : v'.object = v.object) :
    Ensures (setVma p i (some v')) w fun _ w' ↦ Tally ct fr hs w' := by
  unfold setVma
  rw [ensures_modify]
  set w' : World P O F := { w with
    proc := update w.proc p
      { w.proc p with vmas := update (w.proc p).vmas i (some v') } } with hw'
  have hproc : ∀ q, q ≠ p → w'.proc q = w.proc q := fun q hq ↦ update_of_ne hq ..
  have hmine : w'.proc p = { w.proc p with vmas := update (w.proc p).vmas i (some v') } :=
    update_self ..
  have hkstack : ∀ q, (w'.proc q).kstack = (w.proc q).kstack := by
    intro q
    by_cases hq : q = p
    · rw [hq, hmine]
    · rw [hproc q hq]
  have hlay1 : Layout sz (w'.proc p).vmas := by
    rw [hmine]
    exact hlay'
  have hcontains : ∀ a, v'.contains a = v.contains a := by
    intro a
    unfold Vma.contains
    rw [hstart, hfin]
  have hbacking : ∀ n, v'.backing n = v.backing n := by
    intro n
    unfold Vma.backing
    rw [hstart, hoffset]
  have hplace : ∀ q n y, w'.place q n = some y ↔ w.place q n = some y := by
    intro q n y
    by_cases hq : q = p
    · subst hq
      obtain ⟨o, k⟩ := y
      rw [World.place_eq_some hlay1, World.place_eq_some hlay, hmine]
      dsimp only
      constructor
      · rintro ⟨j, x, hx, hc, ho, hb⟩
        rw [update_apply] at hx
        split_ifs at hx with hj
        · cases hx
          exact ⟨i, v, hv, by rwa [← hcontains], by rwa [← hobject], by rwa [← hbacking]⟩
        · exact ⟨j, x, hx, hc, ho, hb⟩
      · rintro ⟨j, x, hx, hc, ho, hb⟩
        by_cases hj : j = i
        · rw [hj, hv] at hx
          cases hx
          exact ⟨i, v', update_self .., by rwa [hcontains], by rwa [hobject],
            by rwa [hbacking]⟩
        · exact ⟨j, x, by rw [update_of_ne hj, hx], hc, ho, hb⟩
    · unfold World.place
      rw [hproc q hq]
  refine h.views rfl (World.owns_congr rfl rfl hkstack) rfl hkstack ?_ ?_ rfl
  · intro q n y hy _
    exact (hplace q n y).mpr hy
  · intro q n n' o k k' hk hk'
    exact h.base q n n' o k k' ((hplace _ _ _).mp hk) ((hplace _ _ _).mp hk')

section

variable [Fintype P] (hP : Fintype.card P ≤ nproc) [DecidableEq O]

include hP

/-! ### Populating -/

/-- A round of `mmap_populate`. -/
theorem populatePage_tally (h : Tally ct fr hs w) (hroom : ∀ c, hs.count c < nproc) {p : P}
    (hu : w.there (.user p) = true) (hk : w.there (.kern p) = true) {v : Vma O} {n : Nat}
    (hn : UserPage n) (hview : view (w.proc p).vmas n = some (v.page n)) :
    Ensures (populatePage p v n) w fun _ w' ↦ Tally ct fr hs w' := by
  unfold populatePage
  apply (walk_spec w (.user p) n).bind
  rintro r w0 ⟨rfl, -⟩
  split
  · rw [ensures_pure]
    exact h
  · apply ((vmaFault_eff w0 v n).and (vmaFault_tally hP h hroom hview)).bind
    rintro r w1 ⟨heff1, hr⟩
    cases r with
    | none =>
      rw [ensures_pure]
      exact hr
    | some pa =>
      obtain ⟨h1, hb⟩ := hr
      have hu1 : w1.there (.user p) = true := by rw [heff1.core.there, hu]
      refine ((mappages_spec w1 (.user p) n pa v.perm).and
        (mappages_brings h1 v.perm hu1 hn hb)).bind ?_
      rintro b w2 ⟨hspec, h2⟩
      rw [ensures_ite]
      refine ⟨fun hb ↦ ?_, fun hb ↦ ?_⟩
      · rw [if_pos hb] at h2
        obtain ⟨-, -, heff2⟩ := hspec.resolve_right (by simp [hb])
        have hk2 : w2.there (.kern p) = true := by
          rw [heff2.core.there, heff1.core.there, hk]
        apply (vmSyncUserPage_tally h2 n hk2).bind
        rintro b w3 ⟨h3, -, -⟩
        rw [ensures_ite, ensures_pure]
        exact ⟨fun _ ↦ h3, fun _ ↦ ensures_halt⟩
      · rw [if_neg hb] at h2
        simp only [ensures_bind, ensures_pure]
        exact (kfreePage_tally hP h2).mono fun _ _ h3 ↦ h3.2

/-- `mmap_populate`. -/
theorem mmapPopulate_tally (h : Tally ct fr hs w) (hroom : ∀ c, hs.count c < nproc) {p : P}
    (halive : Alive w p) {i : Fin nvma} {v : Vma O} (hv : (w.proc p).vmas i = some v)
    (hct : ∀ n, ct (.user p n) = none) :
    Ensures (mmapPopulate p i v) w fun _ w' ↦ Tally ct fr hs w' := by
  have hlay := halive.space.layout
  have hok := hlay.ok i v hv
  have hfin : v.fin ≤ maxuva := hok.fin_le.trans (by decide)
  unfold mmapPopulate
  rw [ensures_ite, ensures_pure, ensures_bind]
  refine ⟨fun _ ↦ h, fun _ ↦ ?_⟩
  refine (ensures_stopAt
    (fun left w' ↦ left ⊆ pages v.start v.fin ∧ Tally ct fr hs w' ∧ Core w w')
    (fun _ _ w' ↦ Tally ct fr hs w' ∧ Core w w') ?_ ⟨fun _ hn ↦ hn, h, .refl w⟩).mono ?_
  · rintro n left w1 ⟨hsub, h1, hcore1⟩
    have hn := hsub List.mem_cons_self
    have hview : view (w1.proc p).vmas n = some (v.page n) := by
      rw [hcore1.proc]
      exact hlay.view_eq_some.mpr ⟨i, v, hv, hok.mem_pages.mp hn, rfl⟩
    apply ((populatePage_spec w1 p v n).and (populatePage_tally hP h1 hroom
      (by rw [hcore1.there, halive.user]) (by rw [hcore1.there, halive.kern])
      (userPage_of_mem_pages hok.start_mod hfin hn) hview)).mono
    rintro ok w2 ⟨hspec, h2⟩
    have hcore2 : Core w1 w2 := by
      rcases hspec with ⟨-, -, heff⟩ | ⟨-, pa, heff⟩ | ⟨-, heff⟩
      · exact heff.core
      · exact heff.core
      · exact heff.core
    have hcore := hcore1.trans hcore2
    cases ok with
    | false => exact ⟨h2, hcore⟩
    | true => exact ⟨fun m hm ↦ hsub (List.mem_cons_of_mem n hm), h2, hcore⟩
  · intro r w1 h1
    cases r with
    | none =>
      obtain ⟨-, h1, hcore1⟩ := h1
      simp only [ensures_bind, ensures_pure]
      have hok' : ({ v with ops := false } : Vma O).Ok :=
        ⟨hok.start_mod, hok.fin_mod, hok.start_lt, hok.fin_le, hok.valid_le, hok.valid_gt⟩
      have hlay1 : Layout (w1.proc p).sz (w1.proc p).vmas := by rwa [hcore1.proc]
      have hv1 : (w1.proc p).vmas i = some v := by rw [hcore1.proc, hv]
      exact setVma_relabel_tally h1 hlay1 hv1 (hlay1.shrink hv1 hok' le_rfl le_rfl) rfl rfl rfl rfl
    | some n =>
      obtain ⟨ys, ⟨zs, hsplit⟩, h1, -⟩ := h1
      have hn : n ∈ pages v.start v.fin := by simp [hsplit]
      have hlt := ((mem_pages hok.start_mod).mp hn).2
      simp only [ensures_bind, ensures_pure]
      apply (vmaUnmapPages_tally hP h1 p (fun m hm ↦ ?_) fun m _ ↦ hct m).mono fun _ _ h2 ↦ h2.1
      exact userPage_of_mem_pages hok.start_mod (hlt.le.trans hfin) hm

/-! ### The three kinds of mappings -/

omit [DecidableEq P] [Fintype P] hP [DecidableEq O] in
/-- An object mapped nowhere. -/
theorem World.Unmapped.congr {w' : World P O F} {o : O} (h : w.Unmapped o)
    (hproc : w'.proc = w.proc) : w'.Unmapped o := by
  unfold World.Unmapped
  rwa [hproc]

/-- The objects of the mappings exist. -/
def World.Backed (w : World P O F) : Prop :=
  ∀ p i v o, (w.proc p).vmas i = some v → v.object = some o → w.obj o ≠ none

omit [DecidableEq P] [Fintype P] hP [DecidableEq O] in
/-- No mapping refers to an object that does not exist. -/
theorem World.Backed.unmapped (h : w.Backed) {o : O} (ho : w.obj o = none) : w.Unmapped o :=
  fun p i v hv hobj ↦ h p i v o hv hobj ho

omit [DecidableEq P] hP in
/-- References to objects are counted, so the objects exist. -/
theorem Ledger.backed [Fintype O] [DecidableEq F] {g : F → Int}
    (h : Ledger (fun _ ↦ 0) g w) : w.Backed := by
  intro p i v o hv hobj hnone
  have hgone := h.gone o hnone
  have hpos : 0 < refs w.vmaObj o :=
    refs_pos.mpr ⟨(p, i), by rw [vmaObj_of_eq hv]; exact hobj⟩
  omega

variable [DecidableEq F]

/-- An object is made, then a mapping of it. -/
theorem mapObject_tally (h : Tally ct fr hs w) {p : P} (hspace : SpaceAt w p) (hbacked : w.Backed)
    (hobjs : NoObjects ct) (addr length prot flags : Nat) (type : VmaType) (file : Option F)
    (offset : Nat) :
    Ensures (do
      match ← mmapObjectCreate type file flags 0 with
      | none => pure none
      | some o =>
        match ← mmapMapCreate p addr length prot flags type (some o) offset with
        | none =>
          mmapObjectPut o
          pure none
        | some start => pure (some start)) w fun _ w' ↦ Tally ct fr hs w' := by
  apply ((mmapObjectCreate_tab w type file flags 0).and
    (mmapObjectCreate_tally hP h type file flags 0)).bind
  rintro r w1 ⟨htab1, h1, hnone⟩
  cases r with
  | none =>
    rw [ensures_pure]
    exact h1
  | some o =>
    have hnew : ∀ o', some o = some o' → w1.Unmapped o' := by
      intro o' ho'
      cases ho'
      exact (hbacked.unmapped (hnone o rfl)).congr htab1.proc
    apply (mmapMapCreate_tally h1 (hspace.tab htab1) addr length prot flags type (some o) offset
      hnew).bind
    intro r w2 h2
    cases r with
    | none =>
      simp only [ensures_bind, ensures_pure]
      exact mmapObjectPut_tally hP h2 o (hobjs.spare o)
    | some start =>
      rw [ensures_pure]
      exact h2

/-- A mapping that failed is removed. -/
theorem unmapAfter_tally (h : Tally ct fr hs w) {p : P} (hspace : SpaceAt w p)
    (hobjs : NoObjects ct) (hct : ∀ n, ct (.user p n) = none) (start length : Nat) :
    Ensures (do
      let _ ← vmaUnmap p start length
      pure (none : Option Nat)) w fun _ w' ↦ Tally ct fr hs w' := by
  simp only [ensures_bind, ensures_pure]
  exact vmaUnmap_tally hP h hspace start length hobjs fun n _ ↦ hct n

omit [Fintype P] hP [DecidableEq O] [DecidableEq F] in
/-- The objects still exist after a slot got a mapping of one of them. -/
theorem setVma_backed (h : w.Backed) (p : P) (i : Fin nvma) {v : Vma O}
    (hobject : ∀ o, v.object = some o → w.obj o ≠ none) :
    Ensures (setVma p i (some v)) w fun _ w' ↦ w'.Backed := by
  unfold setVma
  rw [ensures_modify]
  intro q j x o hx ho
  dsimp only at hx ⊢
  by_cases hq : q = p
  · subst hq
    rw [update_self] at hx
    dsimp only at hx
    rw [update_apply] at hx
    split_ifs at hx with hj
    · cases hx
      exact hobject o ho
    · exact h q j x o hx ho
  · rw [update_of_ne hq] at hx
    exact h q j x o hx ho

omit [Fintype P] hP [DecidableEq O] [DecidableEq F] in
private theorem mmapMapCreate_backed (h : w.Backed) (p : P) (addr length prot flags : Nat)
    (type : VmaType)
    (object : Option O) (offset : Nat) (hobject : ∀ o, object = some o → w.obj o ≠ none) :
    Ensures (mmapMapCreate p addr length prot flags type object offset) w fun _ w' ↦
      w'.Backed := by
  unfold mmapMapCreate
  simp only [ensures_bind, ensures_get, ensures_ite, ensures_pure]
  refine ⟨fun _ ↦ h, fun _ ↦ ⟨fun _ ↦ h, fun _ ↦ ⟨fun _ ↦ h, fun _ ↦ ⟨fun _ ↦ h, fun _ ↦ ?_⟩⟩⟩⟩
  split
  · rw [ensures_pure]
    exact h
  · simp only [ensures_bind, ensures_ite, ensures_pure]
    exact ⟨fun _ ↦ h, fun _ ↦ setVma_backed h p _ hobject⟩

/-- `vma_map_device`, from the return of the device's `mmap` on. -/
theorem mapDeviceObject_tally (h : Tally ct fr hs w) (hroom : ∀ c, hs.count c < nproc) {p : P}
    (halive : Alive w p) (hbacked : w.Backed) (hobjs : NoObjects ct)
    (hct : ∀ n, ct (.user p n) = none) {i : Fin nvma} {v : Vma O}
    (hv : (w.proc p).vmas i = some v) (hops : v.ops = true) (hobject : v.object = none)
    (start length : Nat) (f : F) (offset : Nat) (populate : Bool) :
    Ensures (mapDeviceObject p i v start length f offset populate) w fun _ w' ↦
      Tally ct fr hs w' := by
  have hlay := halive.space.layout
  have hok := hlay.ok i v hv
  have hok' : ∀ object, ({ v with populate := populate, object := object } : Vma O).Ok :=
    fun _ ↦ ⟨hok.start_mod, hok.fin_mod, hok.start_lt, hok.fin_le, hok.valid_le, hok.valid_gt⟩
  unfold mapDeviceObject
  rw [ensures_bind]
  have hbacked1 := setVma_backed hbacked p i (v := { v with populate := populate })
    fun o ho ↦ hbacked p i v o hv ho
  have h1 := setVma_relabel_tally h hlay hv (hlay.shrink hv (hok' v.object) le_rfl le_rfl) rfl rfl
    rfl rfl
  refine (((setVma_relabel halive.space hv (by rfl) (by rfl) (by rfl) (by simp [hops])).and
    hbacked1).and h1).mono ?_
  rintro _ w1 ⟨⟨⟨hown1, hspace1, hv1⟩, hbacked1⟩, h1⟩
  apply ((mmapObjectCreate_tab w1 .kbuf (some f) _ _).and
    (mmapObjectCreate_tally hP h1 .kbuf (some f) _ _)).bind
  rintro r w2 ⟨htab2, h2, hnone2⟩
  have hspace2 := hspace1.tab htab2
  cases r with
  | none => exact unmapAfter_tally hP h2 hspace2 hobjs hct start length
  | some o =>
    have hv2 : (w2.proc p).vmas i = some { v with populate := populate } := by
      rw [htab2.proc, hv1]
    have hunmapped : w2.Unmapped o := (hbacked1.unmapped (hnone2 o rfl)).congr htab2.proc
    have hlay2 := hspace2.layout
    have h3 := setVma_object h2 hlay2 (v := { v with populate := populate, object := some o })
      (hlay2.shrink hv2 (hok' (some o)) le_rfl le_rfl)
      (fun v0 hv0 ↦ by
        cases hv2.symm.trans hv0
        exact hobject)
      (fun o' ho' ↦ by
        cases ho'
        exact hunmapped)
    refine ((setVma_relabel hspace2 hv2 (by rfl) (by rfl) (by rfl) (by simp [hops])).and h3).bind ?_
    rintro _ w3 ⟨⟨hown3, hspace3, hv3⟩, h3⟩
    rw [ensures_ite, ensures_bind, ensures_pure]
    refine ⟨fun _ ↦ ?_, fun _ ↦ h3⟩
    have hthere3 : ∀ t, w3.there t = w.there t := fun t ↦
      (hown3.there t).trans ((htab2.there t).trans (hown1.there t))
    have halive3 : Alive w3 p :=
      ⟨(hthere3 _).trans halive.user, (hthere3 _).trans halive.kern, hspace3⟩
    apply ((mmapPopulate_spec hspace3 hv3).and
      (mmapPopulate_tally hP h3 hroom halive3 hv3 hct)).mono
    rintro b w4 ⟨⟨-, hspace4⟩, h4⟩
    rw [ensures_ite, ensures_pure]
    exact ⟨fun _ ↦ h4, fun _ ↦ unmapAfter_tally hP h4 hspace4 hobjs hct start length⟩

/-- `vma_map_device`. -/
theorem vmaMapDevice_tally (h : Tally ct fr hs w) (hroom : ∀ c, hs.count c < nproc) {p : P}
    (halive : Alive w p) (hbacked : w.Backed) (hobjs : NoObjects ct)
    (hct : ∀ n, ct (.user p n) = none) (addr length prot flags : Nat) (f : F) (d : DevMmap)
    (offset : Nat) :
    Ensures (vmaMapDevice p addr length prot flags f d offset) w fun _ w' ↦ Tally ct fr hs w' := by
  have hspace := halive.space
  unfold vmaMapDevice
  simp only [ensures_bind, ensures_get]
  rw [ensures_ite, ensures_ite, ensures_ite, ensures_pure]
  refine ⟨fun _ ↦ h, fun _ ↦ ⟨fun _ ↦ h, fun _ ↦ ⟨fun _ ↦ h, fun _ ↦ ?_⟩⟩⟩
  apply (((mmapMapCreate_spec addr length prot flags .kbuf none offset hspace).and
    (mmapMapCreate_tally h hspace addr length prot flags .kbuf none offset (by rintro _ ⟨⟩))).and
    (mmapMapCreate_backed hbacked p addr length prot flags .kbuf none offset (by rintro _ ⟨⟩))).bind
  rintro r w1 ⟨⟨⟨rfl, rfl⟩ | ⟨i, start, rfl, hi, -, -, hslots1, hspace1⟩, h1⟩, hbacked1⟩
  · rw [ensures_pure]
    exact h1
  · have hthere1 := hslots1.there
    have halive1 : Alive w1 p :=
      ⟨(hthere1 _).trans halive.user, (hthere1 _).trans halive.kern, hspace1⟩
    have hunmap := unmapAfter_tally hP h1 hspace1 hobjs hct start length
    have hfresh : (w1.proc p).vmas i =
        some (.fresh .kbuf start length prot flags none offset) := by
      rw [hslots1.vmas, update_self]
    simp only [ensures_bind, ensures_get]
    split
    · exact hunmap
    · rename_i j hj
      split
      · rw [ensures_pure]
        exact h1
      · rename_i v hv
        rw [ensures_ite]
        refine ⟨fun _ ↦ hunmap, fun hc ↦ ?_⟩
        split
        · exact hunmap
        · have hops : v.ops = true := by
            by_contra hops
            exact hc (.inl (by simpa using hops))
          -- the mapping that is found is the one that was made
          have hobject : v.object = none := by
            obtain ⟨v', hv', hcontains⟩ := exists_of_mmapVmaFind hj
            cases hv.symm.trans hv'
            have hstart : (Vma.fresh .kbuf start length prot flags none offset : Vma O).contains
                start := Vma.contains_iff.mpr ⟨le_rfl, (hspace1.layout.ok i _ hfresh).start_lt⟩
            cases hspace1.layout.unique hv hfresh hcontains hstart
            cases hv.symm.trans hfresh
            rfl
          exact mapDeviceObject_tally hP h1 hroom halive1 hbacked1 hobjs hct hv hops hobject start
            length f offset _

/-- `sys_mmap` keeps the tally. -/
theorem sysMmap_tally (h : Tally ct fr hs w) (hroom : ∀ c, hs.count c < nproc) {p : P}
    (halive : Alive w p) (hbacked : w.Backed) (hobjs : NoObjects ct)
    (hct : ∀ n, ct (.user p n) = none) (addr : Nat) (length : Int) (prot flags : Nat)
    (fd offset : Int) :
    Ensures (sysMmap p addr length prot flags fd offset) w fun _ w' ↦ Tally ct fr hs w' := by
  have hmap : ∀ type file (offset : Nat), Ensures (do
      match ← mmapObjectCreate type file flags 0 with
      | none => pure none
      | some o =>
        match ← mmapMapCreate p addr length.toNat prot flags type (some o) offset with
        | none =>
          mmapObjectPut o
          pure none
        | some start => pure (some start)) w fun _ w' ↦ Tally ct fr hs w' := fun type file offset ↦
    mapObject_tally hP h halive.space hbacked hobjs addr _ prot flags type file offset
  unfold sysMmap
  simp only [ensures_bind, ensures_get]
  rw [ensures_ite, ensures_ite, ensures_pure]
  refine ⟨fun _ ↦ h, fun _ ↦ ⟨fun _ ↦ ?_, fun _ ↦ ?_⟩⟩
  · unfold vmaMapAnon
    rw [ensures_ite, ensures_ite, ensures_pure]
    exact ⟨fun _ ↦ h, fun _ ↦ ⟨fun _ ↦ h, fun _ ↦ hmap .anon none 0⟩⟩
  · split
    · split
      · rw [ensures_pure]
        exact h
      · split
        · exact vmaMapDevice_tally hP h hroom halive hbacked hobjs hct addr _ prot flags _ _ _
        · unfold vmaMapFile
          simp only [ensures_bind, ensures_get]
          rw [ensures_ite, ensures_ite, ensures_ite, ensures_ite, ensures_pure]
          exact ⟨fun _ ↦ h, fun _ ↦ ⟨fun _ ↦ h, fun _ ↦ ⟨fun _ ↦ h, fun _ ↦ ⟨fun _ ↦ h, fun _ ↦
            hmap .file _ _⟩⟩⟩⟩
    · rw [ensures_pure]
      exact h

end

end Xv6K210.Vm
