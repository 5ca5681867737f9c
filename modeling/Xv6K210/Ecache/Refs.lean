import Mathlib.Data.Fintype.Prod
import Xv6K210.Base.RefCount
import Xv6K210.Ecache.Cache

/-!
# References between cached entries

The reference count of an entry is the number of its children that are in use,
and of the references that callers hold. The invariant also says in which order the entries
without references stand: a child behind its parent, so that it is recycled first.
-/

namespace Xv6K210.Ecache

open Xv6K210.Base Xv6K210.Fs Prog Function

variable {S : Type}

/-- The reference that an entry holds: a slot in use that is filled holds its parent. -/
def Dirent.link (x : Dirent S) : Option (Ent S) :=
  if 0 < x.ref ∧ x.valid ≠ 0 then x.parent else none

/-- The references between slots. -/
def Cache.link (c : Cache S) (s : S) : Option (Ent S) := (c.ent (.entry s)).link

/-- A filled entry in use links to its parent. -/
theorem Dirent.link_of_ref {x : Dirent S} (hr : 0 < x.ref) (hv : x.valid ≠ 0) :
    x.link = x.parent := by
  unfold Dirent.link
  rw [if_pos ⟨hr, hv⟩]

/-- An empty entry links to nothing. -/
theorem Dirent.link_of_valid {x : Dirent S} (h : x.valid = 0) : x.link = none := by
  simp [Dirent.link, h]

/-- An unused entry links to nothing. -/
theorem Dirent.link_of_unused {x : Dirent S} (h : x.ref = 0) : x.link = none := by
  simp [Dirent.link, h]

/-- The recency list and what the slots hold. -/
structure Shape (c : Cache S) : Prop where
  nodup : c.order.Nodup
  all : ∀ s, s ∈ c.order
  root : (c.ent .root).valid ≠ 0
  parent : ∀ s, (c.ent (.entry s)).valid ≠ 0 → ∃ p, (c.ent (.entry s)).parent = some p
  /-- the parent slot holds the directory of the entry -/
  home : ∀ s p, (c.ent (.entry s)).valid = 1 → (c.ent (.entry s)).parent = some p →
    (c.ent p).valid ≠ 0 ∧ (c.ent (.entry s)).home = (c.ent p).born
  /-- an unused child stands behind its unused parent -/
  order : ∀ s t, (c.ent (.entry s)).valid = 1 → (c.ent (.entry s)).ref = 0 →
    (c.ent (.entry s)).parent = some (.entry t) → (c.ent (.entry t)).ref = 0 →
      Before c.order t s

/-- Only slots that are filled are in use. -/
def Settled (c : Cache S) : Prop := ∀ s, 0 < (c.ent (.entry s)).ref → (c.ent (.entry s)).valid ≠ 0

/-- The cache is sound, with `d` references held by callers. -/
structure Sound [Fintype S] [DecidableEq S] (d : Ent S → Int) (c : Cache S) : Prop where
  count : ∀ e, ((c.ent e).ref : Int) = refs c.link e + d e
  shape : Shape c

/-- The entries are the same up to their counts, and fields that the invariant does not speak
of. -/
structure Alike (c c' : Cache S) : Prop where
  valid : ∀ e, (c'.ent e).valid = (c.ent e).valid
  parent : ∀ e, (c'.ent e).parent = (c.ent e).parent
  born : ∀ e, (c'.ent e).born = (c.ent e).born
  home : ∀ e, (c'.ent e).home = (c.ent e).home
  name : ∀ e, (c'.ent e).filename = (c.ent e).filename
  attr : ∀ e, (c'.ent e).attr = (c.ent e).attr

/-- Every entry is like itself. -/
theorem Alike.refl (c : Cache S) : Alike c c :=
  ⟨fun _ ↦ rfl, fun _ ↦ rfl, fun _ ↦ rfl, fun _ ↦ rfl, fun _ ↦ rfl, fun _ ↦ rfl⟩

/-- Alike entries of alike entries are alike. -/
theorem Alike.trans {c c' c'' : Cache S} (h : Alike c c') (h' : Alike c' c'') : Alike c c'' := by
  constructor
  · intro e
    rw [h'.valid, h.valid]
  · intro e
    rw [h'.parent, h.parent]
  · intro e
    rw [h'.born, h.born]
  · intro e
    rw [h'.home, h.home]
  · intro e
    rw [h'.name, h.name]
  · intro e
    rw [h'.attr, h.attr]

/-- Also the counts and the recency list are the same. -/
structure Same (c c' : Cache S) : Prop extends Alike c c' where
  order : c'.order = c.order
  ref : ∀ e, (c'.ent e).ref = (c.ent e).ref

/-- Nothing changed. -/
theorem Same.refl (c : Cache S) : Same c c := ⟨.refl c, rfl, fun _ ↦ rfl⟩

/-- Neither entries nor order changed. -/
theorem Same.of_ent {c c' : Cache S} (hent : c'.ent = c.ent) (horder : c'.order = c.order) :
    Same c c' := by
  refine ⟨?_, horder, fun e ↦ by rw [hent]⟩
  constructor <;> intro e <;> rw [hent]

/-- The links are the same. -/
theorem Same.link {c c' : Cache S} (h : Same c c') : c'.link = c.link := by
  ext s : 1
  unfold Cache.link Dirent.link
  rw [h.ref, h.valid, h.parent]

/-- The counts changed: which of the unused children are concerned is to be shown. -/
theorem Shape.alike {c c' : Cache S} (h : Shape c) (h' : Alike c c')
    (horder : c'.order = c.order)
    (hunused : ∀ s t, (c.ent (.entry s)).valid = 1 → (c'.ent (.entry s)).ref = 0 →
      (c.ent (.entry s)).parent = some (.entry t) → (c'.ent (.entry t)).ref = 0 →
        Before c.order t s) : Shape c' := by
  constructor
  · rw [horder]
    exact h.nodup
  · rw [horder]
    exact h.all
  · rw [h'.valid]
    exact h.root
  · intro s
    rw [h'.valid, h'.parent]
    exact h.parent s
  · intro s p
    rw [h'.valid, h'.parent, h'.valid, h'.home, h'.born]
    exact h.home s p
  · intro s t
    rw [horder, h'.valid, h'.parent]
    exact hunused s t

/-- The shape is the same. -/
theorem Shape.same {c c' : Cache S} (h : Shape c) (h' : Same c c') : Shape c' := by
  apply h.alike h'.toAlike h'.order
  intro s t
  rw [h'.ref, h'.ref]
  exact h.order s t

/-- The entries in use are filled as before. -/
theorem Settled.same {c c' : Cache S} (h : Settled c) (h' : Same c c') : Settled c' := by
  intro s
  rw [h'.ref, h'.valid]
  exact h s

variable [DecidableEq S]

/-- A name is found where it was. -/
theorem Same.hit {c c' : Cache S} (h : Same c c') (p : Ent S) (name : List UInt8) :
    c'.hit p name = c.hit p name := by
  unfold Cache.hit Cache.caches
  simp only [h.order, h.valid, h.parent, h.name]

variable [Fintype S] {d : Ent S → Int}

/-- The counts are right as before. -/
theorem Sound.same {c c' : Cache S} (h : Sound d c) (h' : Same c c') : Sound d c' := by
  refine ⟨?_, h.shape.same h'⟩
  intro e
  rw [h'.ref, h'.link]
  exact h.count e

/-- Equal demands are met alike. -/
theorem Sound.congr {c : Cache S} {d' : Ent S → Int} (h : Sound d c) (hd : ∀ e, d' e = d e) :
    Sound d' c := by
  rw [show d' = d from funext hd]
  exact h

/-- An entry that is held is in use. -/
theorem Sound.ref_pos {c : Cache S} (h : Sound d c) {e : Ent S} (he : 0 < d e) :
    0 < (c.ent e).ref := by
  have := h.count e
  omega

/-- The parent of a filled slot in use is in use. -/
theorem Sound.parent_pos {c : Cache S} (h : Sound d c) (hd : ∀ e, 0 ≤ d e) {s : S} {p : Ent S}
    (hr : 0 < (c.ent (.entry s)).ref) (hv : (c.ent (.entry s)).valid ≠ 0)
    (hp : (c.ent (.entry s)).parent = some p) : 0 < (c.ent p).ref := by
  have hlink : c.link s = some p := by rw [Cache.link, Dirent.link_of_ref hr hv, hp]
  have hpos := refs_pos.mpr ⟨s, hlink⟩
  have := h.count p
  have := hd p
  omega

omit [Fintype S] in
private theorem link_update (c : Cache S) (s : S) (x : Dirent S) :
    Cache.link { c with ent := update c.ent (.entry s) x } =
      update c.link s x.link := by
  ext t : 1
  unfold Cache.link
  dsimp only
  rw [update_apply, update_apply]
  by_cases hts : t = s
  · simp [hts]
  · simp [hts]

omit [Fintype S] in
private theorem link_root (c : Cache S) (x : Dirent S) :
    Cache.link { c with ent := update c.ent .root x } = c.link := by
  ext t : 1
  unfold Cache.link
  dsimp only
  rw [update_of_ne (by simp)]

/-- A slot changes: what this does to the counts. -/
theorem count_update {c : Cache S} (h : ∀ e, ((c.ent e).ref : Int) = refs c.link e + d e) (s : S)
    (x : Dirent S) {d' : Ent S → Int}
    (hd : ∀ e, d' e = d e + ((x.ref : Int) - (c.ent (.entry s)).ref) * holds (some (.entry s)) e +
      holds (c.link s) e - holds x.link e) (e : Ent S) :
    ((update c.ent (.entry s) x e).ref : Int) =
      refs (Cache.link { c with ent := update c.ent (.entry s) x }) e + d' e := by
  rw [link_update, refs_update, hd]
  have hcount := h e
  by_cases he : e = .entry s
  · subst he
    rw [update_self, holds_self]
    omega
  · rw [update_of_ne he, holds_of_ne (Ne.symm he)]
    omega

/-! ### Single steps -/

omit [Fintype S] in
/-- An entry changes in its count only. -/
theorem alike_update (c : Cache S) (e : Ent S) {f : Dirent S → Dirent S}
    (hf : ∀ x, (f x).valid = x.valid ∧ (f x).parent = x.parent ∧ (f x).born = x.born ∧
      (f x).home = x.home ∧ (f x).filename = x.filename ∧ (f x).attr = x.attr) :
    Alike c { c with ent := update c.ent e (f (c.ent e)) } := by
  have hfield : ∀ {α : Type} (get : Dirent S → α), (∀ x, get (f x) = get x) →
      ∀ e', get (update c.ent e (f (c.ent e)) e') = get (c.ent e') := by
    intro α get hget e'
    by_cases he : e' = e
    · rw [he, update_self, hget]
    · rw [update_of_ne he]
  exact ⟨hfield (·.valid) fun x ↦ (hf x).1, hfield (·.parent) fun x ↦ (hf x).2.1,
    hfield (·.born) fun x ↦ (hf x).2.2.1, hfield (·.home) fun x ↦ (hf x).2.2.2.1,
    hfield (·.filename) fun x ↦ (hf x).2.2.2.2.1, hfield (·.attr) fun x ↦ (hf x).2.2.2.2.2⟩

omit [Fintype S] in
/-- A change of the other fields of an entry. -/
theorem setEnt_same (c : Cache S) (e : Ent S) {f : Dirent S → Dirent S}
    (hf : ∀ x, (f x).valid = x.valid ∧ (f x).parent = x.parent ∧ (f x).born = x.born ∧
      (f x).home = x.home ∧ (f x).filename = x.filename ∧ (f x).attr = x.attr)
    (href : ∀ x, (f x).ref = x.ref) :
    Ensures (setEnt e f) c fun _ c' ↦ Same c c' := by
  unfold setEnt
  rw [ensures_modify]
  refine ⟨alike_update c e hf, rfl, ?_⟩
  intro e'
  dsimp only
  by_cases he : e' = e
  · rw [he, update_self, href]
  · rw [update_of_ne he]

omit [DecidableEq S] [Fintype S] in
/-- `elock` needs a reference. -/
theorem elock_spec (c : Cache S) (e : Ent S) :
    Ensures (elock e) c fun _ c' ↦ c' = c ∧ 0 < (c.ent e).ref := by
  unfold elock
  simp only [ensures_bind, ensures_get, ensures_ite, ensures_pure]
  exact ⟨fun _ ↦ ensures_halt, fun h ↦ ⟨trivial, by omega⟩⟩

omit [DecidableEq S] [Fintype S] in
/-- `eunlock` changes nothing. -/
theorem eunlock_spec (c : Cache S) (e : Ent S) :
    Ensures (eunlock e) c fun _ c' ↦ c' = c := by
  unfold eunlock
  simp only [ensures_bind, ensures_get, ensures_ite, ensures_pure]
  exact ⟨fun _ ↦ ensures_halt, fun _ ↦ trivial⟩

omit [DecidableEq S] [Fintype S] in
/-- A routine that unlocks an entry first. -/
theorem ensures_eunlock {α : Type} {c : Cache S} {e : Ent S} {x : Unit → Cached S α}
    {post : α → Cache S → Prop} (hx : Ensures (x ()) c post) :
    Ensures (eunlock e >>= x) c post := by
  apply (eunlock_spec c e).bind
  rintro _ _ rfl
  exact hx

/-- `edup` of an entry in use, or of the root. -/
theorem edup_sound {c : Cache S} (h : Sound d c) {e : Ent S}
    (he : e = .root ∨ 0 < (c.ent e).ref) :
    Ensures (edup e) c fun _ c' ↦ Sound (fun x ↦ d x + holds (some e) x) c' ∧ Alike c c' ∧
      (∀ x, (c.ent x).ref ≤ (c'.ent x).ref) ∧ ∀ x, x ≠ e → (c'.ent x).ref = (c.ent x).ref := by
  have hle : ∀ x, (c.ent x).ref ≤
      (update c.ent e { c.ent e with ref := (c.ent e).ref + 1 } x).ref := by
    intro x
    by_cases hx : x = e
    · rw [hx, update_self]
      exact Nat.le_succ _
    · rw [update_of_ne hx]
  have halike := alike_update c e (f := fun x ↦ { x with ref := x.ref + 1 })
    fun _ ↦ ⟨rfl, rfl, rfl, rfl, rfl, rfl⟩
  unfold edup setEnt
  rw [ensures_modify]
  have hrest : ∀ x, x ≠ e →
      (update c.ent e { c.ent e with ref := (c.ent e).ref + 1 } x).ref =
        (c.ent x).ref := by
    intro x hx
    rw [update_of_ne hx]
  refine ⟨⟨?_, h.shape.alike halike rfl ?_⟩, halike, hle, hrest⟩
  swap
  · intro s t hv hr hp hr'
    exact h.shape.order s t hv (Nat.le_zero.mp (hr ▸ hle _)) hp (Nat.le_zero.mp (hr' ▸ hle _))
  intro e'
  cases e with
  | root =>
    rw [link_root]
    have hcount := h.count e'
    dsimp only
    by_cases hr : e' = .root
    · subst hr
      rw [update_self, holds_self]
      push_cast
      omega
    · rw [update_of_ne hr, holds_of_ne (Ne.symm hr)]
      omega
  | entry s =>
    apply count_update h.count s
    intro e'
    have hpos := he.resolve_left (by simp)
    have hlink : Dirent.link { c.ent (.entry s) with ref := (c.ent (.entry s)).ref + 1 } =
        c.link s := by
      unfold Cache.link Dirent.link
      simp [hpos]
    rw [hlink]
    push_cast
    omega

/-! ### Giving references back -/

/-- The entry that loses a reference when `e` loses one: its parent, when it was the last. -/
def Cache.released (c : Cache S) : Ent S → Option (Ent S)
  | .root => none
  | .entry s => if (c.ent (.entry s)).ref = 1 then c.link s else none

omit [Fintype S] in
/-- One more reference is not negative. -/
theorem Sound.nonneg_add {e : Ent S} (hd : ∀ x, 0 ≤ d x) (x : Ent S) :
    0 ≤ d x + holds (some e) x := by
  have := holds_nonneg (some e) x
  have := hd x
  omega

/-- The count of `e` goes down. If it was the last reference of a filled slot, this slot stands
in front. -/
theorem putRef_sound {c : Cache S} {e : Ent S} (hd : ∀ x, 0 ≤ d x)
    (h : Sound (fun x ↦ d x + holds (some e) x) c)
    (hfront : ∀ s, e = .entry s → (c.ent e).ref = 1 → (c.ent e).valid ≠ 0 →
      ∀ t, t ≠ s → Before c.order s t) :
    Ensures (setEnt e fun x ↦ { x with ref := x.ref - 1 }) c fun _ c' ↦
      Sound (fun x ↦ d x + holds (c.released e) x) c' ∧ Alike c c' ∧
        ∀ x, (c'.ent x).ref ≤ (c.ent x).ref := by
  have hpos : 0 < (c.ent e).ref := by
    apply h.ref_pos
    rw [holds_self]
    have := hd e
    omega
  have hle : ∀ x, (update c.ent e { c.ent e with ref := (c.ent e).ref - 1 } x).ref ≤
      (c.ent x).ref := by
    intro x
    by_cases hx : x = e
    · rw [hx, update_self]
      exact Nat.sub_le _ _
    · rw [update_of_ne hx]
  have halike := alike_update c e (f := fun x ↦ { x with ref := x.ref - 1 })
    fun _ ↦ ⟨rfl, rfl, rfl, rfl, rfl, rfl⟩
  unfold setEnt
  rw [ensures_modify]
  refine ⟨⟨?_, h.shape.alike halike rfl ?_⟩, halike, hle⟩
  · intro x
    cases e with
    | root =>
      rw [link_root]
      have hcount := h.count x
      dsimp only at hcount ⊢
      rw [Cache.released, holds_none]
      by_cases hr : x = .root
      · subst hr
        rw [update_self]
        rw [holds_self] at hcount
        dsimp only
        omega
      · rw [update_of_ne hr]
        rw [holds_of_ne (Ne.symm hr)] at hcount
        omega
    | entry s =>
      apply count_update h.count s
      intro x
      have hlink : Dirent.link { c.ent (.entry s) with ref := (c.ent (.entry s)).ref - 1 } =
          if (c.ent (.entry s)).ref = 1 then none else c.link s := by
        unfold Cache.link Dirent.link
        dsimp only
        by_cases hone : (c.ent (.entry s)).ref = 1
        · rw [if_pos hone, if_neg]
          omega
        · rw [if_neg hone]
          have : 0 < (c.ent (.entry s)).ref - 1 := by omega
          simp [hpos, this]
      rw [hlink, Cache.released]
      push_cast [Nat.succ_le_of_lt hpos]
      by_cases hone : (c.ent (.entry s)).ref = 1
      · rw [if_pos hone, if_pos hone, holds_none]
        omega
      · rw [if_neg hone, if_neg hone, holds_none]
        omega
  · intro s t hv hr hp hr'
    have hdh := Sound.nonneg_add (e := e) hd
    dsimp only at hr hr'
    by_cases ht : Ent.entry t = e
    · -- the parent is given up: it stands in front
      subst ht
      rw [update_self] at hr'
      dsimp only at hr'
      have hone : (c.ent (.entry t)).ref = 1 := by omega
      apply hfront t rfl hone (h.shape.home s _ hv hp).1
      rintro rfl
      have hlink : c.link s = some (.entry s) := by
        rw [Cache.link, Dirent.link_of_ref hpos (by rw [hv]; decide), hp]
      have hone' := refs_pos.mpr ⟨s, hlink⟩
      have hcount := h.count (.entry s)
      rw [holds_self] at hcount
      have := hd (.entry s)
      omega
    · rw [update_of_ne ht] at hr'
      by_cases hs : Ent.entry s = e
      · -- the child is given up: its parent is in use
        subst hs
        have := h.parent_pos hdh hpos (by rw [hv]; decide) hp
        omega
      · rw [update_of_ne hs] at hr
        exact h.shape.order s t hv hr hp hr'

omit [Fintype S] in
/-- A slot in use moves to the front. -/
theorem Shape.front {c : Cache S} (h : Shape c) {s : S} (hs : 0 < (c.ent (.entry s)).ref) :
    Shape { c with order := toFront s c.order } := by
  refine ⟨nodup_toFront h.nodup, ?_, h.root, h.parent, h.home, ?_⟩
  · intro t
    exact (mem_toFront (h.all s)).mpr (h.all t)
  · intro a t hv hr hp hr'
    apply before_toFront (h.order a t hv hr hp hr')
    · rintro rfl
      dsimp only at hr'
      omega
    · rintro rfl
      dsimp only at hr
      omega

omit [Fintype S] in
private theorem flush_same (c : Cache S) (e p : Ent S) :
    Ensures (flush e p) c fun _ c' ↦ Same c c' := by
  unfold flush
  simp only [ensures_bind, ensures_get, ensures_ite]
  refine ⟨fun _ ↦ ?_, fun _ ↦ ?_⟩
  · exact setEnt_same _ _ (fun _ ↦ ⟨rfl, rfl, rfl, rfl, rfl, rfl⟩) fun _ ↦ rfl
  · apply (elock_spec _ p).mono
    rintro _ c1 ⟨rfl, -⟩
    have hupdate : Ensures (eupdate e) c1 fun _ c' ↦ Same c1 c' := by
      apply setEnt_same
      · intro x
        split_ifs
        · exact ⟨rfl, rfl, rfl, rfl, rfl, rfl⟩
        · exact ⟨rfl, rfl, rfl, rfl, rfl, rfl⟩
      · intro x
        split_ifs
        · rfl
        · rfl
    apply hupdate.mono
    intro _ c2 h2
    apply (eunlock_spec c2 p).mono
    rintro _ c3 rfl
    exact h2

/-- The recursion of `eput` gives the reference back that the caller held. -/
theorem eputLoop_sound (n : Nat) {c : Cache S} {e : Ent S} (hd : ∀ x, 0 ≤ d x)
    (h : Sound (fun x ↦ d x + holds (some e) x) c) :
    Ensures (eputLoop n e) c fun _ c' ↦ Sound d c' ∧
      (∀ x, (c'.ent x).ref ≤ (c.ent x).ref) ∧ Alike c c' := by
  induction n generalizing c e with
  | zero => exact ensures_halt
  | succ n ih =>
    have hput : ∀ {c1 : Cache S}, Sound (fun x ↦ d x + holds (some e) x) c1 →
        c1.released e = none →
        (∀ s, e = .entry s → (c1.ent e).ref = 1 → (c1.ent e).valid ≠ 0 →
          ∀ t, t ≠ s → Before c1.order s t) →
        Ensures (setEnt e fun x ↦ { x with ref := x.ref - 1 }) c1 fun _ c' ↦ Sound d c' ∧
          (∀ x, (c'.ent x).ref ≤ (c1.ent x).ref) ∧ Alike c1 c' := by
      intro c1 h1 hreleased hfront
      apply (putRef_sound hd h1 hfront).mono
      rintro _ c2 ⟨h2, halike, hle⟩
      refine ⟨h2.congr ?_, hle, halike⟩
      intro x
      rw [hreleased, holds_none, add_zero]
    rw [eputLoop, ensures_bind, ensures_get]
    cases e with
    | root => exact hput h rfl (by simp)
    | entry s =>
      dsimp only
      rw [ensures_ite]
      constructor
      · rintro ⟨hv, hone⟩
        obtain ⟨p, hp⟩ := h.shape.parent s hv
        have hpos : 0 < (c.ent (.entry s)).ref := by omega
        have hlink : c.link s = some p := by rw [Cache.link, Dirent.link_of_ref hpos hv, hp]
        rw [hp]
        simp only [ensures_bind, ensures_modify]
        -- the list, then the fields that go to the disk
        have h1 : Sound (fun x ↦ d x + holds (some (.entry s)) x)
            { c with order := toFront s c.order } := ⟨h.count, h.shape.front hpos⟩
        apply (flush_same _ (.entry s) p).mono
        intro _ c2 h2
        have hs2 := h1.same h2
        have hreleased : c2.released (.entry s) = some p := by
          rw [Cache.released, h2.ref, if_pos hone, h2.link]
          exact hlink
        refine (putRef_sound hd hs2 ?_).mono ?_
        · rintro t ⟨⟩ _ _ a ha
          rw [h2.order]
          exact before_toFront_self (h.shape.all a) ha
        · rintro _ c3 ⟨h3, halike3, hle3⟩
          rw [hreleased] at h3
          apply (ih h3).mono
          rintro _ c4 ⟨h4, hle4, halike4⟩
          have h12 : Alike c c2 :=
            ⟨h2.valid, h2.parent, h2.born, h2.home, h2.name, h2.attr⟩
          refine ⟨h4, ?_, (h12.trans halike3).trans halike4⟩
          intro x
          have := hle4 x
          have := hle3 x
          rw [h2.ref] at this
          dsimp only at this
          omega
      · intro hnot
        apply hput h
        · rw [Cache.released]
          split_ifs with hone
          · apply Dirent.link_of_valid
            by_contra hv
            exact hnot ⟨hv, hone⟩
          · rfl
        · rintro t ⟨⟩ hone hv
          exact absurd ⟨hv, hone⟩ hnot

/-- `eput` gives a reference back. -/
theorem eput_sound {c : Cache S} {e : Ent S} (hd : ∀ x, 0 ≤ d x)
    (h : Sound (fun x ↦ d x + holds (some e) x) c) :
    Ensures (eput e) c fun _ c' ↦ Sound d c' ∧
      (∀ x, (c'.ent x).ref ≤ (c.ent x).ref) ∧ Alike c c' := by
  unfold eput
  rw [ensures_bind, ensures_get]
  exact eputLoop_sound _ hd h

end Xv6K210.Ecache
