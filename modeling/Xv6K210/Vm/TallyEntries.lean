import Xv6K210.Vm.NewSpace
import Xv6K210.Vm.Tally

/-!
# Entries in the tally

An entry of a process for user memory is an owner, so mapping a page takes it from
the hand and unmapping one frees it. The entries of a kernel table own nothing but the stack.
-/

namespace Xv6K210.Vm

open Xv6K210.Base Prog Function

variable {P O F : Type} [DecidableEq P] {ct : Owner P O → Option (Nat → UInt8)}
  {fr : P → Option Nat}
  {hs : List Nat} {w : World P O F}

/-! ### Replacing an entry -/

/-- A table with another entry for a page. -/
def PageTable.put (pt : PageTable) (n : Nat) : Option Pte → PageTable
  | some e => { pt with leaf := pt.leaf.insert n e }
  | none => { pt with leaf := pt.leaf.erase n }

/-- `*pte = …`, as a change of the state. -/
def World.putEntry (w : World P O F) (t : Tbl P) (n : Nat) (x : Option Pte) : World P O F :=
  { w with pt := update w.pt t ((w.pt t).put n x) }

/-- `setLeaf` is one entry put. -/
theorem setLeaf_eq (w : World P O F) (t : Tbl P) (n : Nat) (e : Pte) :
    Ensures (setLeaf t n e) w fun _ w' ↦ w' = w.putEntry t n (some e) := by
  unfold setLeaf setPt
  rw [ensures_modify]
  rfl

/-- `clearLeaf` is one entry taken out. -/
theorem clearLeaf_eq (w : World P O F) (t : Tbl P) (n : Nat) :
    Ensures (clearLeaf t n) w fun _ w' ↦ w' = w.putEntry t n none := by
  unfold clearLeaf setPt
  rw [ensures_modify]
  rfl

/-- The effect of one entry. -/
theorem World.putEntry_eff (w : World P O F) (t : Tbl P) (n : Nat) (x : Option Pte) :
    Eff w (w.putEntry t n x) (w.leaf.put t n x) := by
  cases x with
  | some e => exact (setLeaf_spec w t n e).of_ok () _ rfl
  | none => exact (clearLeaf_spec w t n).of_ok () _ rfl

/-- Owners other than entries do not see it. -/
theorem World.putEntry_owns (w : World P O F) (t : Tbl P) (n : Nat) (x : Option Pte)
    {z : Owner P O} (hz : ∀ m, z ≠ t.entry m) : (w.putEntry t n x).owns fr z = w.owns fr z := by
  cases x with
  | some e => exact w.owns_leaf t _ hz
  | none => exact w.owns_leaf t _ hz

/-- Of the entries of a process, only the one that is replaced. -/
theorem World.putEntry_owns_of_ne (w : World P O F) {t : Tbl P} (ht : t.Process) (n : Nat)
    (x : Option Pte) {z : Owner P O} (hz : z ≠ t.entry n) :
    (w.putEntry t n x).owns fr z = w.owns fr z := by
  by_cases hentry : ∃ m, z = t.entry m
  · obtain ⟨m, rfl⟩ := hentry
    have hm : m ≠ n := by
      rintro rfl
      exact hz rfl
    by_cases hu : UserPage m
    · rw [World.owns_entry _ ht hu, World.owns_entry _ ht hu, (w.putEntry_eff t n x).leaf,
        Leaves.put_apply, if_neg fun h ↦ hm h.2]
    · rw [World.owns_entry_of_not _ ht hu, World.owns_entry_of_not _ ht hu]
  · exact w.putEntry_owns t n x fun m h ↦ hentry ⟨m, h⟩

/-- The entry of a page is an owner. -/
def World.Owned (w : World P O F) (t : Tbl P) (n : Nat) : Prop :=
  match t with
  | .kern p => (w.proc p).kstack ≠ 0 ∧ (w.proc p).kstack = n
  | _ => UserPage n

omit [DecidableEq P] in
/-- A process's table owns its user pages. -/
theorem Tbl.Process.owned {t : Tbl P} (ht : t.Process) {n : Nat} : w.Owned t n ↔ UserPage n := by
  cases t with
  | kern p => exact absurd ht id
  | _ => rfl

omit [DecidableEq P] in
/-- An owned entry owns its page. -/
theorem World.Owned.owns {t : Tbl P} {n : Nat} (h : w.Owned t n) :
    w.owns fr (t.entry n) = (w.leaf t n).map (·.pa) := by
  cases t with
  | user p => exact World.owns_entry w (t := .user p) trivial h
  | image p => exact World.owns_entry w (t := .image p) trivial h
  | kern p =>
    obtain ⟨hk, rfl⟩ := h
    exact if_neg hk

/-- An entry put owns its page. -/
theorem World.Owned.putEntry {t : Tbl P} {n : Nat} (h : w.Owned t n) (x : Option Pte) :
    (w.putEntry t n x).owns fr (t.entry n) = x.map (·.pa) := by
  have howned : (w.putEntry t n x).Owned t n := by
    cases t <;> exact h
  rw [howned.owns, (w.putEntry_eff t n x).leaf, Leaves.put_apply, if_pos ⟨rfl, rfl⟩]

/-- The other owners do not see it. -/
theorem World.Owned.putEntry_of_ne {t : Tbl P} {n : Nat} (h : w.Owned t n) (x : Option Pte)
    {z : Owner P O} (hz : z ≠ t.entry n) : (w.putEntry t n x).owns fr z = w.owns fr z := by
  cases t with
  | user p => exact w.putEntry_owns_of_ne (t := .user p) trivial n x hz
  | image p => exact w.putEntry_owns_of_ne (t := .image p) trivial n x hz
  | kern p => exact w.putEntry_owns (.kern p) n x fun _ ↦ hz

/-- An entry that owns nothing. -/
theorem World.putEntry_unowned {t : Tbl P} {n : Nat} (h : ¬ w.Owned t n) (x : Option Pte) :
    (w.putEntry t n x).owns fr = w.owns fr := by
  funext z
  have hprocess : t.Process → (w.putEntry t n x).owns fr z = w.owns fr z := by
    intro ht
    rw [ht.owned] at h
    by_cases hz : z = t.entry n
    · rw [hz, World.owns_entry_of_not _ ht h, World.owns_entry_of_not _ ht h]
    · exact w.putEntry_owns_of_ne ht n x hz
  cases t with
  | user p => exact hprocess trivial
  | image p => exact hprocess trivial
  | kern p =>
    by_cases hz : z = .stack p
    · subst hz
      change (if (w.proc p).kstack = 0 then none else _) =
        if (w.proc p).kstack = 0 then none else _
      split_ifs with hk
      · rfl
      · rw [(w.putEntry_eff (.kern p) n x).leaf, Leaves.put_apply, if_neg]
        · rfl
        · rintro ⟨-, hn⟩
          exact h ⟨hk, hn⟩
    · exact w.putEntry_owns (.kern p) n x fun m ↦ hz

omit [DecidableEq P] in
/-- A kernel table maps user memory for nobody. -/
theorem Tally.not_owned (h : Tally ct fr hs w) (p : P) {n : Nat} (hn : UserPage n) :
    ¬ w.Owned (.kern p) n := by
  rintro ⟨hk, hkn⟩
  rw [← hkn, (h.stack p).resolve_left hk] at hn
  exact not_userPage (by decide) hn

omit [DecidableEq P] in
/-- Neither is an entry outside user memory an owner. -/
theorem Tbl.Process.not_owned {t : Tbl P} (ht : t.Process) {n : Nat} (hn : maxuva / pgsize ≤ n) :
    ¬ w.Owned t n := by
  rw [ht.owned]
  exact not_userPage hn

/-- The entry of a page that is mapped outside user memory, or in a kernel table. -/
theorem Tally.putEntry_unowned (h : Tally ct fr hs w) {t : Tbl P} {n : Nat} (hun : ¬ w.Owned t n)
    (x : Option Pte) : Tally ct fr hs (w.putEntry t n x) :=
  h.congr rfl (World.putEntry_unowned hun x) rfl rfl (fun _ ↦ rfl) fun _ _ _ ↦ rfl

/-- An entry keeps its page. -/
theorem Tally.putEntry_same (h : Tally ct fr hs w) {t : Tbl P} (ht : t.Process) {n : Nat}
    {e e' : Pte}
    (he : w.leaf t n = some e) (hpa : e'.pa = e.pa) :
      Tally ct fr hs (w.putEntry t n (some e')) := by
  refine h.congr rfl ?_ rfl rfl (fun _ ↦ rfl) fun _ _ _ ↦ rfl
  funext z
  by_cases hz : z = t.entry n
  · subst hz
    by_cases hn : UserPage n
    · have howned : w.Owned t n := ht.owned.mpr hn
      rw [howned.putEntry, howned.owns, he, Option.map_some, Option.map_some, hpa]
    · rw [World.owns_entry_of_not _ ht hn, World.owns_entry_of_not _ ht hn]
  · exact w.putEntry_owns_of_ne ht n _ hz

omit [DecidableEq P] in
/-- A table with a root. -/
theorem World.there_root {t : Tbl P} (h : w.there t = true) :
    w.owns fr (.root t : Owner P O) ≠ none := by
  intro hroot
  unfold World.there at h
  rw [show (w.pt t).root = none from hroot] at h
  cases h

/-- A new entry takes a page in hand that nobody else has. -/
theorem Tally.putEntry_fresh {pa : Nat} (h : Tally ct fr (pa :: hs) w) {t : Tbl P} {n : Nat}
    (howned : w.Owned t n) (hfree : w.leaf t n = none) (hthere : w.there t = true)
    (hone : w.quota pa = 1) (perm : Perm) : Tally ct fr hs (w.putEntry t n (some ⟨pa, perm⟩)) := by
  refine h.gain_fresh hone (fun z hz ↦ howned.putEntry_of_ne _ hz) ?_ (howned.putEntry _) rfl ?_
    h.keyed rfl h.stack rfl
  · rw [howned.owns, hfree]
    rfl
  · intro t' ht'
    rw [t.table_entry] at ht'
    cases ht'
    exact .inr (World.there_root hthere)

/-- A page that a fault brings in: nobody else has it, or it is the one at its place. -/
def World.Brings (w : World P O F) (fr : P → Option Nat) (p : P) (n pa : Nat) : Prop :=
  w.quota pa = 1 ∨ ∃ y b, w.owns fr y = some pa ∧ y.backing = some b ∧ w.place p n = some b

/-- A new entry takes a page in hand. -/
theorem Tally.putEntry_brings {pa : Nat} (h : Tally ct fr (pa :: hs) w) {p : P} {n : Nat}
    (hn : UserPage n) (hfree : w.leaf (.user p) n = none) (hthere : w.there (.user p) = true)
    (hb : w.Brings fr p n pa) (perm : Perm) :
    Tally ct fr hs (w.putEntry (.user p) n (some ⟨pa, perm⟩)) := by
  rcases hb with hone | ⟨y, b, hy, hyb, hplace⟩
  · exact h.putEntry_fresh (t := .user p) hn hfree hthere hone perm
  · have howned : w.Owned (.user p) n := hn
    have hnone : w.owns fr (.user p n) = none := by
      have hentry : w.owns fr (.user p n) = _ := howned.owns
      rw [hentry, hfree]
      rfl
    have hrest : ∀ z, z ≠ .user p n → (w.putEntry (.user p) n (some ⟨pa, perm⟩)).owns fr z =
        w.owns fr z := fun z hz ↦ howned.putEntry_of_ne _ hz
    refine h.gain hrest hnone (howned.putEntry _) rfl ?_ ?_ h.keyed rfl h.stack ?_ rfl
    · -- another entry of the process for this page would be at the same place
      intro z hz
      rcases h.once z y pa hz hy with rfl | hshares
      · exact (Owner.user_shares hyb p n).symm
      · obtain ⟨q, m, rfl⟩ := hshares.eq_user hyb
        rintro rfl
        have hnm : n = m := by
          have := h.base q n m b.1 b.2 b.2 hplace (h.member q m y b pa hz hy hyb)
          omega
        rw [hnm, hz] at hnone
        cases hnone
    · intro t ht
      cases ht
      exact .inr (World.there_root hthere)
    · intro q m z c hu hz hzc
      have hz' : w.owns fr z = some pa := by
        rwa [hrest z] at hz
        rintro rfl
        cases hzc
      have hzy := h.backing_unique hz' hy hzc hyb
      rw [hzy, hyb] at hzc
      cases hzc
      by_cases hqm : (.user q m : Owner P O) = .user p n
      · cases hqm
        exact hplace
      · rw [hrest _ hqm] at hu
        exact h.member q m y b pa hu hy hyb

omit [DecidableEq P] in
/-- A page without an entry has no owner there. -/
theorem World.owns_user_none {p : P} {n : Nat} (h : w.leaf (.user p) n = none) :
    w.owns fr (.user p n) = none := by
  simp only [World.owns, userPage, h, Option.map_none, ite_self]

/-! ### Mapping -/

/-- `mappages` maps the page after a walk, or gives up after it. -/
theorem mappages_tally (h : Tally ct fr hs w) {t : Tbl P} (n pa : Nat) (perm : Perm)
    (ht : w.there t = true) :
    Ensures (mappages t n pa perm) w fun b w' ↦ ∃ w1, Tally ct fr hs w1 ∧ Grow w w1 ∧
      (b = true ∧ w.leaf t n = none ∧ w' = w1.putEntry t n (some ⟨pa, perm⟩) ∨
        b = false ∧ w' = w1) := by
  unfold mappages
  apply (walkAlloc_tally n ht h).bind
  rintro b w1 ⟨h1, hg1⟩
  cases b with
  | false => exact ensures_pure.mpr ⟨w1, h1, hg1, .inr ⟨rfl, rfl⟩⟩
  | true =>
    simp only [if_true, ensures_bind, ensures_get, ensures_ite, ensures_pure]
    refine ⟨fun _ ↦ ensures_halt, fun hfree ↦ ?_⟩
    apply (setLeaf_eq w1 t n ⟨pa, perm⟩).mono
    intro _ w2 h2
    refine ⟨w1, h1, hg1, .inl ⟨trivial, ?_, h2⟩⟩
    rw [← hg1.leaf]
    simpa [World.leaf] using hfree

omit [DecidableEq P] in
private theorem World.Owned.of_grow {w' : World P O F} (h : Grow w w') {t : Tbl P} {n : Nat} :
    w'.Owned t n ↔ w.Owned t n := by
  unfold World.Owned
  rw [h.core.proc]

omit [DecidableEq P] in
/-- A page brought stays brought. -/
theorem World.Brings.grow {w' : World P O F} {p : P} {n pa : Nat} (h : w.Brings fr p n pa)
    (h' : Grow w w') : w'.Brings fr p n pa := by
  refine h.imp h'.steady.one ?_
  rintro ⟨y, b, hy, hb, hplace⟩
  refine ⟨y, b, ?_, hb, by rw [h'.place, hplace]⟩
  cases y with
  | anon o i => rwa [World.owns, h'.obj]
  | kbuf o i => rwa [World.owns, h'.obj]
  | _ => cases hb

/-- A page is mapped where the entry owns nothing. -/
theorem mappages_unowned (h : Tally ct fr hs w) {t : Tbl P} {n : Nat} (pa : Nat) (perm : Perm)
    (ht : w.there t = true) (hun : ¬ w.Owned t n) :
    Ensures (mappages t n pa perm) w fun _ w' ↦ Tally ct fr hs w' ∧ Steady w w' ∧
      w'.obj = w.obj := by
  apply (mappages_tally h n pa perm ht).mono
  rintro b _ ⟨w1, h1, hg, ⟨-, -, rfl⟩ | ⟨-, rfl⟩⟩
  · exact ⟨h1.putEntry_unowned (by rwa [World.Owned.of_grow hg]) _, hg.steady, hg.obj⟩
  · exact ⟨h1, hg.steady, hg.obj⟩

/-- A page that a fault brought in is mapped. -/
theorem mappages_brings {p : P} {n pa : Nat} (h : Tally ct fr (pa :: hs) w) (perm : Perm)
    (ht : w.there (.user p) = true) (hn : UserPage n) (hb : w.Brings fr p n pa) :
    Ensures (mappages (.user p) n pa perm) w fun b w' ↦
      if b then Tally ct fr hs w' else Tally ct fr (pa :: hs) w' := by
  apply (mappages_tally h n pa perm ht).mono
  rintro b _ ⟨w1, h1, hg, ⟨rfl, hfree, rfl⟩ | ⟨rfl, rfl⟩⟩
  · rw [if_pos rfl]
    refine h1.putEntry_brings hn ?_ ?_ (hb.grow hg) perm
    · rw [hg.leaf, hfree]
    · rw [hg.core.there, ht]
  · rw [if_neg (by simp)]
    exact h1

/-- A page that was just allocated is mapped. -/
theorem mappages_fresh {t : Tbl P} {n pa : Nat} (h : Tally ct fr (pa :: hs) w) (perm : Perm)
    (ht : w.there t = true) (howned : w.Owned t n) (hone : w.quota pa = 1) :
    Ensures (mappages t n pa perm) w fun b w' ↦
      if b then Tally ct fr hs w' else Tally ct fr (pa :: hs) w' := by
  apply (mappages_tally h n pa perm ht).mono
  rintro b _ ⟨w1, h1, hg, ⟨rfl, hfree, rfl⟩ | ⟨rfl, rfl⟩⟩
  · rw [if_pos rfl]
    refine h1.putEntry_fresh ((World.Owned.of_grow hg).mpr howned) ?_ ?_ (hg.steady.one hone) perm
    · rw [hg.leaf, hfree]
    · rw [hg.core.there, ht]
  · rw [if_neg (by simp)]
    exact h1

private theorem upg2ukpgPage_tally (h : Tally ct fr hs w) (u : Tbl P) {k : Tbl P} {n : Nat}
    (hk : w.there k = true) (hun : ¬ w.Owned k n) :
    Ensures (upg2ukpgPage u k n) w fun _ w' ↦ Tally ct fr hs w' ∧ w'.obj = w.obj ∧ Steady w w' := by
  unfold upg2ukpgPage
  apply (walk_spec w u n).bind
  rintro r w0 ⟨rfl, -⟩
  split
  · rw [ensures_pure]
    exact ⟨h, rfl, .refl w0⟩
  · apply (walkAlloc_tally n hk h).bind
    rintro b w1 ⟨h1, hg1⟩
    rw [ensures_ite, ensures_pure]
    refine ⟨fun _ ↦ ?_, fun _ ↦ ⟨h1, hg1.obj, hg1.steady⟩⟩
    apply (setLeaf_eq w1 k n _).bind
    rintro _ _ rfl
    rw [ensures_pure]
    exact ⟨h1.putEntry_unowned (by rwa [World.Owned.of_grow hg1]) _, hg1.obj, hg1.steady⟩

/-- Entries are copied into a kernel table. -/
theorem upg2ukpg_tally (h : Tally ct fr hs w) (u : Tbl P) {p : P} (ns : List Nat)
    (hk : w.there (.kern p) = true) (hns : ∀ n ∈ ns, UserPage n) :
    Ensures (upg2ukpg u (.kern p) ns) w fun _ w' ↦
      Tally ct fr hs w' ∧ w'.obj = w.obj ∧ Steady w w' := by
  unfold upg2ukpg
  simp only [ensures_bind, ensures_pure]
  refine (ensures_stopAt (fun left w' ↦ (∀ n ∈ left, UserPage n) ∧ w'.there (.kern p) = true ∧
      Tally ct fr hs w' ∧ w'.obj = w.obj ∧ Steady w w')
    (fun _ _ w' ↦ Tally ct fr hs w' ∧ w'.obj = w.obj ∧ Steady w w') ?_
    ⟨hns, hk, h, rfl, .refl w⟩).mono ?_
  · rintro n left w1 ⟨hns1, hk1, h1, hobj1, hs1⟩
    refine ((upg2ukpgPage_spec w1 u (.kern p) n).and
      (upg2ukpgPage_tally h1 u hk1 (h1.not_owned p (hns1 n List.mem_cons_self)))).mono ?_
    rintro b w2 ⟨heff, h2, hobj2, hs2⟩
    have hall := And.intro h2 (And.intro (hobj2.trans hobj1) (hs1.trans hs2))
    cases b with
    | true =>
      refine ⟨fun m hm ↦ hns1 m (List.mem_cons_of_mem n hm), ?_, hall⟩
      rw [heff.core.there, hk1]
    | false => exact hall
  · intro r w' h'
    cases r with
    | none => exact h'.2.2
    | some n =>
      obtain ⟨_, _, h'⟩ := h'
      exact h'

/-- The mirror is no owner. -/
theorem vmSyncUserPage_tally (h : Tally ct fr hs w) {p : P} (n : Nat)
    (hk : w.there (.kern p) = true) :
    Ensures (vmSyncUserPage p n) w fun _ w' ↦
      Tally ct fr hs w' ∧ w'.obj = w.obj ∧ Steady w w' := by
  unfold vmSyncUserPage
  rw [ensures_ite, ensures_pure]
  refine ⟨fun _ ↦ ⟨h, rfl, .refl w⟩, fun hn ↦ ?_⟩
  refine upg2ukpg_tally h _ [n] hk fun m hm ↦ ?_
  rw [List.mem_singleton] at hm
  rw [hm]
  exact Nat.lt_of_not_le hn

/-! ### Unmapping -/

section

variable [Fintype P] (hP : Fintype.card P ≤ nproc)

include hP

omit [Fintype P] hP in
/-- An owner whose page is freed gives it up. -/
theorem Tally.clearEntry (h : Tally ct fr hs w) {w1 : World P O F} {t : Tbl P} {n : Nat} {e : Pte}
    (howned : w.Owned t n) (he : w.leaf t n = some e) (hct : ct (t.entry n) = none)
    (hq : Quiet w w1) (hquota : w1.quota = update w.quota e.pa (w.quota e.pa - 1))
    (hmem : ∀ c, w1.quota c ≠ 0 → w1.mem c = w.mem c) :
    Tally ct fr hs (w1.putEntry t n none) := by
  have howns : w.owns fr (t.entry n) = some e.pa := by
    rw [howned.owns, he]
    rfl
  have howned1 : w1.Owned t n := by
    unfold World.Owned
    rw [hq.core.proc]
    exact howned
  refine h.lose (x := t.entry n) (fun z hz ↦ ?_) howns (howned1.putEntry none) ?_ h.few
    (fun c ↦ ?_) ?_ hq.alike.place (fun p ↦ ?_) hct hmem
  · rw [howned1.putEntry_of_ne none hz, hq.owns]
  · intro t'
    cases t <;> nofun
  · have hpos := h.quota_ne_zero howns
    change w1.quota c + _ + _ = _
    rw [hquota]
    by_cases hc : c = e.pa
    · rw [hc, update_self, List.count_singleton_self]
      omega
    · rw [update_of_ne hc, List.count_singleton, if_neg]
      · rfl
      · rw [beq_iff_eq]
        exact Ne.symm hc
  · change ∀ o x, w1.obj o = some x → _
    rw [hq.obj]
    exact h.keyed
  · change (w1.proc p).kstack = 0 ∨ (w1.proc p).kstack = kstackPage
    rw [hq.alike.kstack]
    exact h.stack p

private theorem uvmunmapPage_tally (h : Tally ct fr hs w) {t : Tbl P} {doFree : Bool} {n : Nat}
    (hn : w.leaf t n = none ∨ (doFree = true ↔ w.Owned t n))
    (hct : doFree = true → ct (t.entry n) = none) :
    Ensures (uvmunmapPage t doFree n) w fun _ w' ↦ Tally ct fr hs w' ∧ w'.obj = w.obj := by
  unfold uvmunmapPage
  apply (walk_spec w t n).bind
  rintro r w0 ⟨rfl, rfl⟩
  cases he : w0.leaf t n with
  | none =>
    rw [ensures_pure]
    exact ⟨h, rfl⟩
  | some e =>
    have hn := hn.resolve_left (by rw [he]; exact Option.some_ne_none e)
    simp only [ensures_ite, ensures_bind, ensures_doIf]
    refine ⟨fun _ ↦ ensures_halt, fun _ ↦ ⟨fun hfree ↦ ?_, fun hfree ↦ ?_⟩⟩
    · have howned := hn.mp hfree
      have howns : w0.owns fr (t.entry n) = some e.pa := by
        rw [howned.owns, he]
        rfl
      have hlt : w0.quota e.pa < 255 := h.quota_lt hP
      refine (kfreePage_quota (h.quota_ne_zero howns) (by omega)).mono ?_
      rintro _ w1 ⟨hq, hquota, hmem⟩
      apply (clearLeaf_eq w1 t n).mono
      rintro _ _ rfl
      exact ⟨h.clearEntry howned he (hct hfree) hq hquota hmem, hq.obj⟩
    · apply (clearLeaf_eq w0 t n).mono
      rintro _ _ rfl
      exact ⟨h.putEntry_unowned (fun howned ↦ hfree (hn.mpr howned)) none, rfl⟩

/-- Pages are unmapped, with their quotas. -/
theorem uvmunmap_tally {t : Tbl P} {doFree : Bool} {ns : List Nat} (h : Tally ct fr hs w)
    (hns : ∀ n ∈ ns, w.leaf t n = none ∨ (doFree = true ↔ w.Owned t n))
    (hct : doFree = true → ∀ n ∈ ns, ct (t.entry n) = none) :
    Ensures (uvmunmap t ns doFree) w fun _ w' ↦ Tally ct fr hs w' ∧ w'.obj = w.obj := by
  unfold uvmunmap
  refine (ensures_forEach (fun left w' ↦ (∀ n ∈ left, (w'.leaf t n = none ∨
    (doFree = true ↔ w'.Owned t n)) ∧ (doFree = true → ct (t.entry n) = none)) ∧
    Tally ct fr hs w' ∧ w'.obj = w.obj) ?_
    ⟨fun n hn ↦ ⟨hns n hn, fun hfree ↦ hct hfree n hn⟩, h, rfl⟩).mono ?_
  · rintro n left w1 ⟨hns1, h1, hobj1⟩
    obtain ⟨hn, hctn⟩ := hns1 n List.mem_cons_self
    refine ((uvmunmapPage_spec w1 t doFree n).and (uvmunmapPage_tally hP h1 hn hctn)).mono ?_
    rintro _ w2 ⟨heff, h2, hobj2⟩
    refine ⟨fun m hm ↦ ?_, h2, hobj2.trans hobj1⟩
    obtain ⟨hm1, hctm⟩ := hns1 m (List.mem_cons_of_mem n hm)
    refine ⟨hm1.imp (fun hnone ↦ ?_) fun hiff ↦ ?_, hctm⟩
    · rw [heff.leaf, Leaves.put_apply]
      split_ifs
      · rfl
      · exact hnone
    · unfold World.Owned
      rw [heff.core.proc]
      exact hiff
  · exact fun _ _ h' ↦ h'.2

/-- Pages of user memory are freed. -/
theorem uvmunmap_process {t : Tbl P} (ht : t.Process) {ns : List Nat} (h : Tally ct fr hs w)
    (hns : ∀ n ∈ ns, UserPage n) (hct : ∀ n ∈ ns, ct (t.entry n) = none) :
    Ensures (uvmunmap t ns true) w fun _ w' ↦ Tally ct fr hs w' ∧ w'.obj = w.obj :=
  uvmunmap_tally hP h (fun n hn ↦ .inr ⟨fun _ ↦ ht.owned.mpr (hns n hn), fun _ ↦ rfl⟩) fun _ ↦ hct

/-- Entries that own nothing go. -/
theorem uvmunmap_unowned {t : Tbl P} {ns : List Nat} (h : Tally ct fr hs w)
    (hns : ∀ n ∈ ns, ¬ w.Owned t n) :
    Ensures (uvmunmap t ns false) w fun _ w' ↦ Tally ct fr hs w' ∧ w'.obj = w.obj :=
  uvmunmap_tally hP h (fun n hn ↦ .inr ⟨nofun, fun howned ↦ absurd howned (hns n hn)⟩) nofun

end

/-! ### Whole tables -/

/-- `uvmcreate`, where there is no table yet. -/
theorem uvmcreate_tally (h : Tally ct fr hs w) {t : Tbl P} (ht : w.owns fr (.root t) = none) :
    Ensures (uvmcreate t) w fun _ w' ↦ Tally ct fr hs w' ∧ w'.obj = w.obj ∧ Steady w w' := by
  unfold uvmcreate
  apply (kallocPage_tally h).bind
  rintro r w1 ⟨hq1, hs1, hr⟩
  cases r with
  | none =>
    rw [ensures_pure]
    exact ⟨hr, hq1.obj, hs1⟩
  | some pa =>
    obtain ⟨h1, -, hone⟩ := hr
    simp only [ensures_bind, ensures_pure]
    apply (zeroPage_tally h1 hone).mono
    rintro _ w2 ⟨hq2, hquota2, h2⟩
    have hq12 := hq1.trans hq2
    have hnone : ∀ z, z.table = some t → w2.owns fr z = none := by
      intro z hz
      rw [hq12.owns]
      exact h.null t ht z hz
    unfold setPt
    rw [ensures_modify]
    refine ⟨h2.gain_fresh (x := .root t) ?_ (fun z hz ↦ ?_) (hnone _ rfl) ?_ rfl ?_ h2.keyed rfl
      h2.stack rfl, hq12.obj, ?_⟩
    · rw [hquota2, hone]
    · by_cases htable : z.table = some t
      · rw [hnone z htable]
        cases z with
        | user p n =>
          cases htable
          simp [World.owns, World.leaf, userPage]
        | image p n =>
          cases htable
          simp [World.owns, World.leaf, userPage]
        | stack p =>
          cases htable
          simp [World.owns, World.leaf]
        | root t' =>
          cases htable
          exact absurd rfl hz
        | mid t' k =>
          cases htable
          simp [World.owns]
        | low t' k =>
          cases htable
          simp [World.owns]
        | _ => cases htable
      · exact w2.owns_pt_of_ne t _ htable
    · simp [World.owns]
    · intro t' ht'
      cases ht'
      exact .inl rfl
    · exact hs1.trans (.of_eq hquota2)

omit [DecidableEq P] in
/-- The owners that are pages of a table are its list of pages. -/
theorem World.encard_tables (w : World P O F) {t : Tbl P}
    (hentries : ∀ n, w.owns fr (t.entry n) = none) (a : Nat) :
    {z : Owner P O | z.table = some t ∧ w.owns fr z = some a}.encard = (w.pt t).tables.count a := by
  have hroot : ∀ a, {z : Owner P O | z = .root t ∧ w.owns fr z = some a}.encard =
      (w.pt t).root.toList.count a := by
    intro a
    cases hr : (w.pt t).root with
    | some pa => exact encard_one (f := w.owns fr) (i := Owner.root t) hr a
    | none =>
      rw [Option.toList_none, List.count_nil, Nat.cast_zero, Set.encard_eq_zero,
        Set.eq_empty_iff_forall_notMem]
      rintro z ⟨rfl, hz⟩
      rw [show w.owns fr (.root t) = none from hr] at hz
      cases hz
  have hmid : ∀ a, {z : Owner P O | (∃ k, z = .mid t k) ∧ w.owns fr z = some a}.encard =
      (w.pt t).l1.values.count a := by
    intro a
    rw [values_eq_map_toList]
    refine encard_keyed (nodup_keys_toList _) (g := Owner.mid t) ?_ (fun z ↦ Iff.rfl) fun k a ↦ ?_
    · intro k k' hk
      cases hk
      rfl
    · exact Std.ExtTreeMap.mem_toList_iff_getElem?_eq_some.symm
  have hlow : ∀ a, {z : Owner P O | (∃ k, z = .low t k) ∧ w.owns fr z = some a}.encard =
      (w.pt t).l0.values.count a := by
    intro a
    rw [values_eq_map_toList]
    refine encard_keyed (nodup_keys_toList _) (g := Owner.low t) ?_ (fun z ↦ Iff.rfl) fun k a ↦ ?_
    · intro k k' hk
      cases hk
      rfl
    · exact Std.ExtTreeMap.mem_toList_iff_getElem?_eq_some.symm
  have hupper := encard_append (f := w.owns fr) (C := fun z ↦ z = Owner.root t ∨ ∃ k,
    z = Owner.mid t k)
    (fun _ _ ↦ Iff.rfl) (by rintro z rfl ⟨k, hk⟩; cases hk) hroot hmid
  refine encard_append (fun z a ↦ ?_) ?_ hupper hlow a
  · constructor
    · rintro ⟨ht, hz⟩
      refine ⟨?_, hz⟩
      cases z with
      | user p n =>
        cases ht
        rw [show w.owns fr (.user p n) = none from hentries n] at hz
        cases hz
      | image p n =>
        cases ht
        rw [show w.owns fr (.image p n) = none from hentries n] at hz
        cases hz
      | stack p =>
        cases ht
        rw [show w.owns fr (.stack p) = none from hentries 0] at hz
        cases hz
      | root t' =>
        cases ht
        exact .inl (.inl rfl)
      | mid t' k =>
        cases ht
        exact .inl (.inr ⟨k, rfl⟩)
      | low t' k =>
        cases ht
        exact .inr ⟨k, rfl⟩
      | _ => cases ht
    · rintro ⟨(rfl | ⟨k, rfl⟩) | ⟨k, rfl⟩, hz⟩
      · exact ⟨rfl, hz⟩
      · exact ⟨rfl, hz⟩
      · exact ⟨rfl, hz⟩
  · rintro z (rfl | ⟨k, rfl⟩) ⟨j, hj⟩
    · cases hj
    · cases hj

section

variable [Fintype P] (hP : Fintype.card P ≤ nproc)

include hP

/-- The pages of a table are freed and the table is gone, when its entries own nothing. -/
theorem freeTables_tally (h : Tally ct fr hs w) {t : Tbl P}
    (hentries : ∀ n, w.owns fr (t.entry n) = none) (hct : ∀ z, z.table = some t → ct z = none) :
    Ensures (do
      forEach kfreePage (w.pt t).tables
      setPt t fun _ ↦ .null) w fun _ w' ↦ Tally ct fr hs w' ∧ w'.obj = w.obj := by
  have hlist := w.encard_tables hentries
  refine (kfreePages_quota _ (h.count_le hlist) fun c ↦
    lt_trans (h.quota_lt hP) (by decide)).bind ?_
  rintro _ w1 ⟨hq, hquota, hmem⟩
  unfold setPt
  rw [ensures_modify]
  refine ⟨h.drop (C := fun z ↦ z.table = some t) (fun z hz ↦ ?_) (fun z hz ↦ ?_) hlist
    (fun t' ht' z hz ↦ ?_) h.few (fun c ↦ ?_) ?_ hq.alike.place (fun p ↦ ?_) hct hmem, hq.obj⟩
  · rw [w1.owns_pt_of_ne t _ hz, hq.owns]
  · cases z with
    | user p n =>
      cases hz
      simp [World.owns, World.leaf, userPage, PageTable.null]
    | image p n =>
      cases hz
      simp [World.owns, World.leaf, userPage, PageTable.null]
    | stack p =>
      cases hz
      simp [World.owns, World.leaf, PageTable.null]
    | root t' =>
      cases hz
      simp [World.owns, PageTable.null]
    | mid t' k =>
      cases hz
      simp [World.owns, PageTable.null]
    | low t' k =>
      cases hz
      simp [World.owns, PageTable.null]
    | _ => cases hz
  · cases ht'
    exact hz
  · have := hquota c
    change w1.quota c + _ + _ = _
    omega
  · change ∀ o x, w1.obj o = some x → _
    rw [hq.obj]
    exact h.keyed
  · change (w1.proc p).kstack = 0 ∨ (w1.proc p).kstack = kstackPage
    rw [hq.alike.kstack]
    exact h.stack p

/-- `freewalk`: a table without entries is freed. -/
theorem freewalk_tally (h : Tally ct fr hs w) (t : Tbl P)
    (hct : ∀ z, z.table = some t → ct z = none) :
    Ensures (freewalk t) w fun _ w' ↦ Tally ct fr hs w' ∧ w'.obj = w.obj := by
  unfold freewalk
  rw [ensures_bind, ensures_get, ensures_ite]
  refine ⟨fun hempty ↦ freeTables_tally hP h (fun n ↦ ?_) hct, fun _ ↦ ensures_halt⟩
  have hleaf : ∀ n, w.leaf t n = none := fun n ↦ by
    unfold World.leaf
    rw [Std.ExtTreeMap.isEmpty_iff.mp hempty]
    exact Std.ExtTreeMap.getElem?_empty
  cases t with
  | user p => simp [Tbl.entry, World.owns, userPage, hleaf]
  | image p => simp [Tbl.entry, World.owns, userPage, hleaf]
  | kern p => simp [Tbl.entry, World.owns, hleaf]

/-- `ukvmfree`, of a kernel table without a stack. -/
theorem ukvmfree_tally (h : Tally ct fr hs w) {p : P} (hk : (w.proc p).kstack = 0)
    (hct : ∀ z, z.table = some (.kern p) → ct z = none) :
    Ensures (ukvmfree (.kern p)) w fun _ w' ↦ Tally ct fr hs w' ∧ w'.obj = w.obj := by
  unfold ukvmfree
  rw [ensures_bind, ensures_get]
  exact freeTables_tally hP h (fun _ ↦ if_pos hk) hct

/-- A table is freed, with its pages. -/
theorem uvmfree_tally (h : Tally ct fr hs w) {t : Tbl P} {sz : Nat}
    (ht : sz = 0 ∨ t.Process ∧ sz ≤ maxuva) (hct : ∀ z, z.table = some t → ct z = none) :
    Ensures (uvmfree t sz) w fun _ w' ↦ Tally ct fr hs w' ∧ w'.obj = w.obj := by
  unfold uvmfree
  rw [ensures_bind, ensures_doIf]
  refine ⟨fun hpos ↦ ?_, fun _ ↦ freewalk_tally hP h t hct⟩
  obtain ⟨hproc, hsz⟩ := ht.resolve_left (by omega)
  refine (uvmunmap_process hP hproc h (fun n hn ↦ ?_) fun n _ ↦ hct _ (t.table_entry n)).mono ?_
  · rw [mem_pages (by decide)] at hn
    exact hn.2.trans_le (pgroundup_le (by decide) hsz)
  · rintro _ w1 ⟨h1, hobj1⟩
    apply (freewalk_tally hP h1 t hct).mono
    rintro _ w2 ⟨h2, hobj2⟩
    exact ⟨h2, hobj2.trans hobj1⟩

end

end Xv6K210.Vm
