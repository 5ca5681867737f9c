import Xv6K210.Vm.Owners

/-!
# Pages and tables in the tally

The routines on physical pages and on page tables keep the tally: a page that is
allocated is in hand until an entry or a table takes it, and a page that an entry gives up is
freed.
-/

namespace Xv6K210.Vm

open Xv6K210.Base Prog Function

variable {P O F : Type}

/-! ### Changes that owners do not see -/

/-- What owners have and where pages are placed is told by the same data. -/
structure Alike (w w' : World P O F) : Prop where
  pt : w'.pt = w.pt
  obj : w'.obj = w.obj
  kstack : ∀ p, (w'.proc p).kstack = (w.proc p).kstack
  vmas : ∀ p, (w'.proc p).vmas = (w.proc p).vmas

section

variable {w w' : World P O F} {ct : Owner P O → Option (Nat → UInt8)} {fr : P → Option Nat}
  {hs : List Nat}

/-- Owners depend on tables, objects and stacks. -/
theorem World.owns_congr (hpt : w'.pt = w.pt) (hobj : w'.obj = w.obj)
    (hkstack : ∀ p, (w'.proc p).kstack = (w.proc p).kstack) : w'.owns fr = w.owns fr := by
  have hleaf : w'.leaf = w.leaf := by
    unfold World.leaf
    rw [hpt]
  funext x
  cases x <;> simp only [World.owns, hleaf, hpt, hkstack, hobj]

/-- Places depend on the mappings. -/
theorem World.place_congr (hvmas : ∀ p, (w'.proc p).vmas = (w.proc p).vmas) :
    w'.place = w.place := by
  funext p n
  unfold World.place
  rw [hvmas]

/-- A quiet step keeps tables and objects. -/
theorem Quiet.alike (h : Quiet w w') : Alike w w' :=
  ⟨h.pt, h.obj, fun p ↦ by rw [h.core.proc], fun p ↦ by rw [h.core.proc]⟩

/-- Owners stay. -/
theorem Alike.owns (h : Alike w w') : w'.owns fr = w.owns fr :=
  World.owns_congr h.pt h.obj h.kstack

/-- Owners stay in a quiet step. -/
theorem Quiet.owns (h : Quiet w w') : w'.owns fr = w.owns fr := h.alike.owns

/-- Places stay. -/
theorem Alike.place (h : Alike w w') : w'.place = w.place := World.place_congr h.vmas

/-- The tally of equal owners. -/
theorem Tally.alike (h : Tally ct fr hs w) (h' : Alike w w') (hquota : w'.quota = w.quota)
    (hmem : w'.mem = w.mem) : Tally ct fr hs w' :=
  h.congr hquota h'.owns h'.obj h'.place h'.kstack fun _ _ _ ↦ by rw [hmem]

/-- A quiet step keeps the tally. -/
theorem Tally.quiet (h : Tally ct fr hs w) (h' : Quiet w w') (hquota : w'.quota = w.quota)
    (hmem : w'.mem = w.mem) : Tally ct fr hs w' :=
  h.alike h'.alike hquota hmem

/-- A page in hand that nobody else has is written. -/
theorem Tally.write {pa : Nat} (h : Tally ct fr (pa :: hs) w) (hone : w.quota pa = 1)
    (h' : Quiet w w') (hquota : w'.quota = w.quota) (hmem : ∀ c, c ≠ pa → w'.mem c = w.mem c) :
    Tally ct fr (pa :: hs) w' := by
  refine h.congr hquota h'.owns h'.obj h'.alike.place h'.alike.kstack fun x c hx ↦ hmem c ?_
  rintro rfl
  exact h.fresh hone x hx

end

/-- Pages in use keep their quota. -/
def Steady (w w' : World P O F) : Prop := ∀ pa, w.quota pa ≠ 0 → w'.quota pa = w.quota pa

/-- Pages of one owner stay. -/
theorem Steady.refl (w : World P O F) : Steady w w := fun _ _ ↦ rfl

/-- Equal quotas. -/
theorem Steady.of_eq {w w' : World P O F} (h : w'.quota = w.quota) : Steady w w' := fun _ _ ↦ by
  rw [h]

/-- Steady steps compose. -/
theorem Steady.trans {w w' w'' : World P O F} (h : Steady w w') (h' : Steady w' w'') :
    Steady w w'' := by
  intro pa hpa
  have hsame := h pa hpa
  rw [h' pa (by rwa [hsame]), hsame]

/-- A page of one owner keeps it. -/
theorem Steady.one {w w' : World P O F} (h : Steady w w') {pa : Nat} (hpa : w.quota pa = 1) :
    w'.quota pa = 1 := by
  rw [h pa (by omega), hpa]

/-! ### Physical pages -/

section

variable {w w' : World P O F} {ct : Owner P O → Option (Nat → UInt8)} {fr : P → Option Nat}
  {hs : List Nat}

/-- A page that is allocated is in hand; it was free before. -/
theorem kallocPage_tally (h : Tally ct fr hs w) :
    Ensures kallocPage w fun r w' ↦ Quiet w w' ∧ Steady w w' ∧
      match r with
      | none => Tally ct fr hs w'
      | some pa => Tally ct fr (pa :: hs) w' ∧ w.quota pa = 0 ∧ w'.quota pa = 1 := by
  refine (kallocPage_quiet w).and ?_
  unfold kallocPage
  rw [ensures_bind, ensures_get]
  split
  · rename_i pa o rest hanswers
    rw [ensures_ite]
    refine ⟨fun hzero ↦ ?_, fun _ ↦ ?_⟩
    · rw [ensures_bind, ensures_set, ensures_pure]
      obtain ⟨hfree, hhand⟩ := h.free hzero
      refine ⟨fun c hc ↦ ?_, ⟨fun c ↦ ?_, h.once, fun c ↦ ?_, h.null, h.keyed, h.member, h.base,
        h.stack, fun x m hx ↦ ?_⟩, hzero, update_self ..⟩
      · apply update_of_ne
        rintro rfl
        exact hc hzero
      · change ((update w.quota pa 1 c : ℕ) : ℕ∞) =
          holders (w.owns fr) c + ((pa :: hs).count c : ℕ)
        by_cases hc : c = pa
        · subst hc
          rw [update_self, holders_eq_zero.mpr hfree, List.count_cons_self,
            List.count_eq_zero_of_not_mem hhand]
          rfl
        · rw [update_of_ne hc, h.count, List.count_cons_of_ne (Ne.symm hc)]
      · by_cases hc : c = pa
        · rw [hc, List.count_cons_self, List.count_eq_zero_of_not_mem hhand]
          decide
        · rw [List.count_cons_of_ne (Ne.symm hc)]
          exact h.few c
      · obtain ⟨c, hc, rfl⟩ := h.kept x m hx
        refine ⟨c, hc, update_of_ne ?_ ..⟩
        rintro rfl
        exact hfree x hc
    · rw [ensures_bind, ensures_set, ensures_pure]
      exact ⟨.refl _, h.congr rfl rfl rfl rfl (fun _ ↦ rfl) fun _ _ _ ↦ rfl⟩
  · rw [ensures_bind, ensures_set, ensures_pure]
    exact ⟨.refl _, h.congr rfl rfl rfl rfl (fun _ ↦ rfl) fun _ _ _ ↦ rfl⟩
  · rw [ensures_pure]
    exact ⟨.refl w, h⟩

/-- The page that was allocated is filled with zeros. -/
theorem zeroPage_tally {pa : Nat} (h : Tally ct fr (pa :: hs) w) (hone : w.quota pa = 1) :
    Ensures (zeroPage pa) w fun _ w' ↦
      Quiet w w' ∧ w'.quota = w.quota ∧ Tally ct fr (pa :: hs) w' := by
  have hq := zeroPage_quiet w pa
  unfold zeroPage at hq ⊢
  rw [ensures_modify] at hq ⊢
  exact ⟨hq, rfl, h.write hone hq rfl fun c hc ↦ update_of_ne hc ..⟩

/-- The page that was allocated gets the contents of another. -/
theorem copyPage_tally {dst : Nat} (h : Tally ct fr (dst :: hs) w) (hone : w.quota dst = 1)
    (src : Nat) :
    Ensures (copyPage dst src) w fun _ w' ↦ Quiet w w' ∧ w'.quota = w.quota ∧
      Tally ct fr (dst :: hs) w' ∧ w'.mem = update w.mem dst (w.mem src) := by
  have hq := copyPage_quiet w dst src
  unfold copyPage at hq ⊢
  rw [ensures_modify] at hq ⊢
  exact ⟨hq, rfl, h.write hone hq rfl fun c hc ↦ update_of_ne hc .., rfl⟩

/-- `kmalloc` keeps the quotas. -/
theorem kmalloc_tally : Ensures kmalloc w fun _ w' ↦
    Quiet w w' ∧ w'.quota = w.quota ∧ w'.mem = w.mem := by
  refine (kmalloc_quiet w).and ?_
  unfold kmalloc
  rw [ensures_bind, ensures_get]
  split
  · rw [ensures_bind, ensures_set, ensures_pure]
    exact ⟨rfl, rfl⟩
  · rw [ensures_pure]
    exact ⟨rfl, rfl⟩

/-- A page of which one more reference is in hand. -/
theorem kaddquota_tally [Fintype P] (hP : Fintype.card P ≤ nproc) {pa : Nat} (h : Tally ct fr hs w)
    (hroom : hs.count pa < nproc) :
    Ensures (kaddquota pa) w fun _ w' ↦ Quiet w w' ∧ Tally ct fr (pa :: hs) w' ∧
      w'.quota = update w.quota pa (w.quota pa + 1) := by
  refine (kaddquota_quiet w pa).and ?_
  have hlt : w.quota pa < 255 := h.quota_lt hP
  unfold kaddquota
  rw [ensures_modify]
  have hmod : (w.quota pa + 1) % 256 = w.quota pa + 1 := Nat.mod_eq_of_lt (by omega)
  simp only [hmod]
  refine ⟨⟨fun c ↦ ?_, h.once, fun c ↦ ?_, h.null, h.keyed, h.member, h.base, h.stack, h.kept⟩,
    trivial⟩
  · change ((update w.quota pa (w.quota pa + 1) c : ℕ) : ℕ∞) =
      holders (w.owns fr) c + ((pa :: hs).count c : ℕ)
    by_cases hc : c = pa
    · subst hc
      rw [update_self, List.count_cons_self, Nat.cast_add, h.count, add_assoc]
      norm_cast
    · rw [update_of_ne hc, h.count, List.count_cons_of_ne (Ne.symm hc)]
  · by_cases hc : c = pa
    · rw [hc, List.count_cons_self]
      exact hroom
    · rw [List.count_cons_of_ne (Ne.symm hc)]
      exact h.few c

/-- What `kfree_page` does to the quota of a page in use. -/
theorem kfreePage_quota {pa : Nat} (hpos : w.quota pa ≠ 0) (hlt : w.quota pa < 256) :
    Ensures (kfreePage pa) w fun _ w' ↦ Quiet w w' ∧
      w'.quota = update w.quota pa (w.quota pa - 1) ∧
      ∀ c, w'.quota c ≠ 0 → w'.mem c = w.mem c := by
  refine (kfreePage_quiet w pa).and ?_
  have hcnt : (w.quota pa + 255) % 256 = w.quota pa - 1 := by omega
  unfold kfreePage
  simp only [ensures_bind, ensures_get, ensures_ite, ensures_set, hcnt]
  refine ⟨fun _ ↦ ⟨trivial, fun _ _ ↦ trivial⟩, fun hzero ↦ ⟨trivial, fun c hc ↦ ?_⟩⟩
  apply update_of_ne
  rintro rfl
  rw [update_self] at hc
  omega

/-- Several pages are freed, each as often as it is in the list. -/
theorem kfreePages_quota (l : List Nat) (hle : ∀ c, l.count c ≤ w.quota c)
    (hlt : ∀ c, w.quota c < 256) :
    Ensures (forEach kfreePage l) w fun _ w' ↦ Quiet w w' ∧
      (∀ c, w'.quota c + l.count c = w.quota c) ∧ ∀ c, w'.quota c ≠ 0 → w'.mem c = w.mem c := by
  induction l generalizing w with
  | nil =>
    rw [forEach, ensures_pure]
    exact ⟨.refl w, fun c ↦ rfl, fun _ _ ↦ rfl⟩
  | cons pa l ih =>
    have hpa := hle pa
    rw [List.count_cons_self] at hpa
    rw [forEach, ensures_bind]
    have hpos : w.quota pa ≠ 0 := by omega
    apply (kfreePage_quota hpos (hlt pa)).mono
    rintro _ w1 ⟨hq1, hquota1, hmem1⟩
    have hstep : ∀ c, w1.quota c + [pa].count c = w.quota c := by
      intro c
      rw [hquota1]
      by_cases hc : c = pa
      · rw [hc, update_self, List.count_singleton_self]
        omega
      · rw [update_of_ne hc, List.count_singleton, if_neg]
        · rfl
        · rw [beq_iff_eq]
          exact Ne.symm hc
    have hcons : ∀ c, (pa :: l).count c = l.count c + [pa].count c := fun c ↦ by
      rw [List.count_cons, List.count_singleton]
    have hle1 : ∀ c, l.count c ≤ w1.quota c := by
      intro c
      have h1 := hle c
      have h2 := hstep c
      rw [hcons] at h1
      omega
    have hlt1 : ∀ c, w1.quota c < 256 := by
      intro c
      have h1 := hlt c
      have h2 := hstep c
      omega
    refine (ih hle1 hlt1).mono ?_
    rintro _ w2 ⟨hq2, hquota2, hmem2⟩
    refine ⟨hq1.trans hq2, fun c ↦ ?_, fun c hc ↦ ?_⟩
    · have h1 := hstep c
      have h2 := hquota2 c
      rw [hcons]
      omega
    · have h2 := hquota2 c
      rw [hmem2 c hc, hmem1 c (by omega)]

variable [Fintype P] (hP : Fintype.card P ≤ nproc)

include hP

/-- Pages in hand are freed. -/
theorem kfreePages_tally {l : List Nat} (h : Tally ct fr (l ++ hs) w) :
    Ensures (forEach kfreePage l) w fun _ w' ↦ Quiet w w' ∧ Tally ct fr hs w' := by
  have hle : ∀ c, (l ++ hs).count c ≤ w.quota c := by
    intro c
    have hcount := h.count c
    generalize holders (w.owns fr) c = k at hcount
    cases k with
    | top => cases hcount
    | coe k =>
      have hcount' : w.quota c = k + (l ++ hs).count c := by exact_mod_cast hcount
      omega
  have hlt : ∀ c, w.quota c < 256 := fun c ↦ lt_trans (h.quota_lt hP) (by decide)
  refine (kfreePages_quota l (fun c ↦ ?_) hlt).mono ?_
  · have := hle c
    rw [List.count_append] at this
    omega
  · rintro _ w' ⟨hq, hquota, hmem⟩
    have hcount' : ∀ c, (w'.quota c : ℕ∞) = holders (w'.owns fr) c + (hs.count c : ℕ) := by
      intro c
      have hcount := h.count c
      have hsum := hquota c
      rw [hq.owns]
      rw [List.count_append] at hcount
      generalize holders (w.owns fr) c = k at hcount ⊢
      cases k with
      | top => cases hcount
      | coe k =>
        have hcount' : w.quota c = k + (l.count c + hs.count c) := by exact_mod_cast hcount
        have : w'.quota c = k + hs.count c := by omega
        rw [this]
        norm_cast
    refine ⟨hq, ⟨hcount', ?_, fun c ↦ ?_, ?_, ?_, ?_, ?_, ?_, fun x m hx ↦ ?_⟩⟩
    · rw [hq.owns]
      exact h.once
    · have := h.few c
      rw [List.count_append] at this
      omega
    · rw [hq.owns]
      exact h.null
    · rw [hq.obj]
      exact h.keyed
    · rw [hq.owns, hq.alike.place]
      exact h.member
    · rw [hq.alike.place]
      exact h.base
    · intro p
      rw [hq.alike.kstack]
      exact h.stack p
    · obtain ⟨c, hc, rfl⟩ := h.kept x m hx
      rw [← hq.owns] at hc
      refine ⟨c, hc, hmem c fun hzero ↦ ?_⟩
      have hcount := hcount' c
      rw [hzero, Nat.cast_zero, eq_comm, add_eq_zero] at hcount
      exact holders_pos hc hcount.1

/-- A page in hand is freed. -/
theorem kfreePage_tally {pa : Nat} (h : Tally ct fr (pa :: hs) w) :
    Ensures (kfreePage pa) w fun _ w' ↦ Quiet w w' ∧ Tally ct fr hs w' := by
  have hone := kfreePages_tally hP (l := [pa]) h
  rw [forEach, ensures_bind] at hone
  apply hone.mono
  intro _ w' h'
  rw [forEach, ensures_pure] at h'
  exact h'

end

/-! ### Owners and tables -/

variable [DecidableEq P] {ct : Owner P O → Option (Nat → UInt8)} {fr : P → Option Nat}

/-- The owner that an entry for user memory is. -/
def Tbl.entry : Tbl P → Nat → Owner P O
  | .user p, n => .user p n
  | .image p, n => .image p n
  | .kern p, _ => .stack p

/-- The table is not that of the kernel. -/
def Tbl.Process : Tbl P → Prop
  | .kern _ => False
  | _ => True

/-- A change of one table, seen from the owners outside of it. -/
theorem World.owns_pt_of_ne (w : World P O F) (t : Tbl P) (pt : PageTable) {z : Owner P O}
    (hz : z.table ≠ some t) :
    World.owns { w with pt := update w.pt t pt } fr z = w.owns fr z := by
  have hleaf : ∀ t', t' ≠ t → World.leaf { w with pt := update w.pt t pt } t' =
      w.leaf t' := by
    intro t' ht
    funext n
    simp only [World.leaf, update_of_ne ht]
  have hpt : ∀ t', t' ≠ t → update w.pt t pt t' = w.pt t' := fun t' ht ↦
    update_of_ne ht ..
  cases z with
  | user p n => simp only [World.owns, hleaf _ fun h ↦ hz (congrArg some h)]
  | image p n => simp only [World.owns, hleaf _ fun h ↦ hz (congrArg some h)]
  | stack p => simp only [World.owns, hleaf _ fun h ↦ hz (congrArg some h)]
  | frame p => rfl
  | root t' => simp only [World.owns, hpt _ fun h ↦ hz (congrArg some h)]
  | mid t' k => simp only [World.owns, hpt _ fun h ↦ hz (congrArg some h)]
  | low t' k => simp only [World.owns, hpt _ fun h ↦ hz (congrArg some h)]
  | anon o i => rfl
  | kbuf o i => rfl

/-- Levels are added to a table, seen from the owners that keep their page. -/
private theorem World.owns_levels (w : World P O F) (t : Tbl P) {pt : PageTable} {z : Owner P O}
    (hroot : pt.root = (w.pt t).root) (hleaf : pt.leaf = (w.pt t).leaf)
    (hmid : ∀ k, z = .mid t k → pt.l1[k]? = (w.pt t).l1[k]?)
    (hlow : ∀ k, z = .low t k → pt.l0[k]? = (w.pt t).l0[k]?) :
    World.owns { w with pt := update w.pt t pt } fr z = w.owns fr z := by
  have hsame : World.leaf { w with pt := update w.pt t pt } = w.leaf := by
    funext t' n
    by_cases ht : t' = t
    · subst ht
      simp only [World.leaf, update_self, hleaf]
    · simp only [World.leaf, update_of_ne ht]
  by_cases ht : z.table = some t
  · cases z with
    | user p n => simp only [World.owns, hsame]
    | image p n => simp only [World.owns, hsame]
    | stack p => simp only [World.owns, hsame]
    | frame p => cases ht
    | root t' =>
      cases ht
      simp only [World.owns, update_self, hroot]
    | mid t' j =>
      cases ht
      simp only [World.owns, update_self, hmid j rfl]
    | low t' j =>
      cases ht
      simp only [World.owns, update_self, hlow j rfl]
    | anon o i => cases ht
    | kbuf o i => cases ht
  · exact w.owns_pt_of_ne t _ ht

/-- A level-1 table is added. -/
theorem World.owns_mid (w : World P O F) (t : Tbl P) (k pa : Nat) :
    let w' : World P O F := { w with
      pt := update w.pt t { w.pt t with l1 := (w.pt t).l1.insert k pa } }
    (∀ z, z ≠ .mid t k → w'.owns fr z = w.owns fr z) ∧ w'.owns fr (.mid t k) = some pa := by
  intro w'
  refine ⟨fun z hz ↦ w.owns_levels t rfl rfl ?_ fun _ _ ↦ rfl, ?_⟩
  · rintro j rfl
    have hj : ¬ k = j := fun h ↦ hz (by rw [h])
    simp only [Std.ExtTreeMap.getElem?_insert, compare_eq_iff_eq, if_neg hj]
  · simp only [World.owns, w', update_self, Std.ExtTreeMap.getElem?_insert_self]

/-- A level-0 table is added. -/
theorem World.owns_low (w : World P O F) (t : Tbl P) (k pa : Nat) :
    let w' : World P O F := { w with
      pt := update w.pt t { w.pt t with l0 := (w.pt t).l0.insert k pa } }
    (∀ z, z ≠ .low t k → w'.owns fr z = w.owns fr z) ∧ w'.owns fr (.low t k) = some pa := by
  intro w'
  refine ⟨fun z hz ↦ w.owns_levels t rfl rfl (fun _ _ ↦ rfl) ?_, ?_⟩
  · rintro j rfl
    have hj : ¬ k = j := fun h ↦ hz (by rw [h])
    simp only [Std.ExtTreeMap.getElem?_insert, compare_eq_iff_eq, if_neg hj]
  · simp only [World.owns, w', update_self, Std.ExtTreeMap.getElem?_insert_self]

/-- The entries of a table change. -/
theorem World.owns_leaf (w : World P O F) (t : Tbl P) (m : Std.ExtTreeMap Nat Pte)
    {z : Owner P O} (hz : ∀ n, z ≠ t.entry n) :
    World.owns { w with pt := update w.pt t { w.pt t with leaf := m } } fr z =
      w.owns fr z := by
  by_cases ht : z.table = some t
  · cases z with
    | user p n =>
      cases ht
      exact absurd rfl (hz n)
    | image p n =>
      cases ht
      exact absurd rfl (hz n)
    | stack p =>
      cases ht
      exact absurd rfl (hz 0)
    | frame p => cases ht
    | root t' =>
      cases ht
      simp only [World.owns, update_self]
    | mid t' j =>
      cases ht
      simp only [World.owns, update_self]
    | low t' j =>
      cases ht
      simp only [World.owns, update_self]
    | anon o i => cases ht
    | kbuf o i => cases ht
  · exact w.owns_pt_of_ne t _ ht

omit [DecidableEq P] in
/-- An entry of a table is the owner of the page that it maps. -/
theorem World.owns_entry (w : World P O F) {t : Tbl P} (ht : t.Process) {n : Nat}
    (hn : UserPage n) : w.owns fr (t.entry n) = (w.leaf t n).map (·.pa) := by
  cases t with
  | user p => exact if_pos hn
  | image p => exact if_pos hn
  | kern p => exact absurd ht id

omit [DecidableEq P] in
/-- No owner is outside the user pages. -/
theorem World.owns_entry_of_not (w : World P O F) {t : Tbl P} (ht : t.Process) {n : Nat}
    (hn : ¬ UserPage n) : w.owns fr (t.entry n) = none := by
  cases t with
  | user p => exact if_neg hn
  | image p => exact if_neg hn
  | kern p => exact absurd ht id

omit [DecidableEq P] in
/-- The table of an entry. -/
theorem Tbl.table_entry (t : Tbl P) (n : Nat) : (t.entry n : Owner P O).table = some t := by
  cases t <;> rfl

/-! ### Walks -/

/-- What a walk may do: pages become tables, and nothing else changes. -/
structure Grow (w w' : World P O F) : Prop where
  core : Core w w'
  leaf : w'.leaf = w.leaf
  obj : w'.obj = w.obj
  steady : Steady w w'

omit [DecidableEq P] in
/-- Nothing grows. -/
theorem Grow.refl (w : World P O F) : Grow w w := ⟨.refl w, rfl, rfl, .refl w⟩

omit [DecidableEq P] in
/-- Steps that grow compose. -/
theorem Grow.trans {w w' w'' : World P O F} (h : Grow w w') (h' : Grow w' w'') : Grow w w'' :=
  ⟨h.core.trans h'.core, by rw [h'.leaf, h.leaf], by rw [h'.obj, h.obj],
    h.steady.trans h'.steady⟩

omit [DecidableEq P] in
/-- A quiet and steady step. -/
theorem Quiet.grow {w w' : World P O F} (h : Quiet w w') (h' : Steady w w') : Grow w w' :=
  ⟨h.core, h.leaf, h.obj, h'⟩

omit [DecidableEq P] in
/-- Places stay. -/
theorem Grow.place {w w' : World P O F} (h : Grow w w') : w'.place = w.place :=
  World.place_congr fun p ↦ by rw [h.core.proc]

section

variable {w : World P O F} {hs : List Nat}

/-- A level of a walk. -/
theorem walkLevel_tally {t : Tbl P} {there : PageTable → Bool} {put : Nat → PageTable → PageTable}
    {x : Owner P O} (hx : x.table = some t) (hnone : ∀ w : World P O F,
      there (w.pt t) = false → w.owns fr x = none)
    (hput : ∀ (w : World P O F) (pa : Nat),
      let w' : World P O F := { w with pt := update w.pt t (put pa (w.pt t)) }
      (∀ z, z ≠ x → w'.owns fr z = w.owns fr z) ∧ w'.owns fr x = some pa)
    (hroot : ∀ pa pt, (put pa pt).root = pt.root) (hleaf : ∀ pa pt, (put pa pt).leaf = pt.leaf)
    (ht : w.there t = true) (h : Tally ct fr hs w) :
    Ensures (walkLevel t there put) w fun _ w' ↦ Tally ct fr hs w' ∧ Grow w w' := by
  unfold walkLevel
  simp only [ensures_bind, ensures_get, ensures_ite, ensures_pure]
  refine ⟨fun _ ↦ ⟨h, .refl w⟩, fun hfree ↦ ?_⟩
  apply (kallocPage_tally h).mono
  rintro r w1 ⟨hq1, hs1, hr⟩
  cases r with
  | none =>
    rw [ensures_pure]
    exact ⟨hr, hq1.grow hs1⟩
  | some pa =>
    obtain ⟨h1, -, hone⟩ := hr
    simp only [ensures_bind, ensures_pure]
    apply (zeroPage_tally h1 hone).mono
    rintro _ w2 ⟨hq2, hquota2, h2⟩
    have hq12 := hq1.trans hq2
    refine ((setPt_spec w2 t (put pa) (by rw [hroot])).and (ensures_modify.mpr ?_ :
      Ensures (setPt t (put pa)) w2 fun _ w' ↦ Tally ct fr hs w' ∧ w'.obj = w2.obj ∧
        w'.quota = w2.quota)).mono ?_
    · obtain ⟨hrest, hgot⟩ := hput w2 pa
      refine ⟨h2.gain_fresh ?_ hrest ?_ hgot rfl ?_ h2.keyed rfl h2.stack rfl, rfl, rfl⟩
      · rw [hquota2, hone]
      · apply hnone
        rw [hq12.pt]
        simpa using hfree
      · intro t' ht'
        rw [hx] at ht'
        cases ht'
        right
        intro hroot
        have hthere := hq12.core.there t
        rw [ht] at hthere
        unfold World.there at hthere
        rw [show (w2.pt t).root = none from hroot] at hthere
        cases hthere
    · rintro _ w3 ⟨heff, h3, hobj, hquota3⟩
      refine ⟨h3, hq12.core.trans heff.core, ?_, by rw [hobj, hq12.obj], ?_⟩
      · rw [heff.leaf, hleaf, ← hq12.leaf]
        exact update_eq_self t w2.leaf
      · exact hs1.trans (.of_eq (hquota3.trans hquota2))

private theorem walkMid_tally {t : Tbl P} (k : Nat) (ht : w.there t = true) (h : Tally ct fr hs w) :
    Ensures (walkLevel t (fun pt ↦ pt.l1.contains k)
      fun pa pt ↦ { pt with l1 := pt.l1.insert k pa }) w fun _ w' ↦ Tally ct fr hs w' ∧
        Grow w w' := by
  refine walkLevel_tally (x := .mid t k) rfl ?_ (fun w pa ↦ w.owns_mid t k pa) ?_ ?_ ht h
  · intro w' hfree
    exact Std.ExtTreeMap.getElem?_eq_none_of_contains_eq_false hfree
  · exact fun _ _ ↦ rfl
  · exact fun _ _ ↦ rfl

private theorem walkLow_tally {t : Tbl P} (k : Nat) (ht : w.there t = true) (h : Tally ct fr hs w) :
    Ensures (walkLevel t (fun pt ↦ pt.l0.contains k)
      fun pa pt ↦ { pt with l0 := pt.l0.insert k pa }) w fun _ w' ↦ Tally ct fr hs w' ∧
        Grow w w' := by
  refine walkLevel_tally (x := .low t k) rfl ?_ (fun w pa ↦ w.owns_low t k pa) ?_ ?_ ht h
  · intro w' hfree
    exact Std.ExtTreeMap.getElem?_eq_none_of_contains_eq_false hfree
  · exact fun _ _ ↦ rfl
  · exact fun _ _ ↦ rfl

/-- A walk takes pages for tables. -/
theorem walkAlloc_tally {t : Tbl P} (n : Nat) (ht : w.there t = true) (h : Tally ct fr hs w) :
    Ensures (walkAlloc t n) w fun _ w' ↦ Tally ct fr hs w' ∧ Grow w w' := by
  unfold walkAlloc
  rw [ensures_ite]
  refine ⟨fun _ ↦ ensures_halt, fun _ ↦ ?_⟩
  apply (walkMid_tally _ ht h).bind
  rintro b w1 ⟨h1, hg1⟩
  rw [ensures_ite, ensures_pure]
  refine ⟨fun _ ↦ ?_, fun _ ↦ ⟨h1, hg1⟩⟩
  have ht1 : w1.there t = true := by rw [hg1.core.there, ht]
  apply (walkLow_tally _ ht1 h1).mono
  rintro _ w2 ⟨h2, hg2⟩
  exact ⟨h2, hg1.trans hg2⟩

end

end Xv6K210.Vm
