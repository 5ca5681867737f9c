import Xv6K210.Ecache.Refs

/-!
# Looking up, creating and removing entries

Every routine hands out the reference that it returns, and no other.
-/

namespace Xv6K210.Ecache

open Xv6K210.Base Xv6K210.Fs Prog Function

variable {S : Type}

/-- Entries in use stay in use, and what they are. -/
def Kept (c c' : Cache S) : Prop :=
  ∀ e, 0 < (c.ent e).ref → 0 < (c'.ent e).ref ∧ (c'.ent e).valid = (c.ent e).valid ∧
    (c'.ent e).parent = (c.ent e).parent ∧ (c'.ent e).born = (c.ent e).born ∧
    (c'.ent e).attr = (c.ent e).attr

/-- Every entry is kept. -/
theorem Kept.refl (c : Cache S) : Kept c c := fun _ h ↦ ⟨h, rfl, rfl, rfl, rfl⟩

/-- What is kept twice is kept. -/
theorem Kept.trans {c c' c'' : Cache S} (h : Kept c c') (h' : Kept c' c'') : Kept c c'' := by
  intro e he
  obtain ⟨hr, hv, hp, hb, ha⟩ := h e he
  obtain ⟨hr', hv', hp', hb', ha'⟩ := h' e hr
  exact ⟨hr', by rw [hv', hv], by rw [hp', hp], by rw [hb', hb], by rw [ha', ha]⟩

/-- Entries that stay alike are kept when no count drops. -/
theorem Alike.kept {c c' : Cache S} (h : Alike c c') (hr : ∀ e, (c.ent e).ref ≤ (c'.ent e).ref) :
    Kept c c' :=
  fun e he ↦ ⟨he.trans_le (hr e), h.valid e, h.parent e, h.born e, h.attr e⟩

/-- The same entries are kept. -/
theorem Same.kept {c c' : Cache S} (h : Same c c') : Kept c c' :=
  h.toAlike.kept fun e ↦ (h.ref e).ge

/-- The entries in use stay filled. -/
theorem Settled.alike {c c' : Cache S} (h : Settled c) (h' : Alike c c')
    (hr : ∀ e, (c'.ent e).ref ≤ (c.ent e).ref) : Settled c' := by
  intro s hs
  rw [h'.valid]
  exact h s (hs.trans_le (hr _))

/-- Entries that come into use are filled. -/
theorem Settled.dup {c c' : Cache S} (h : Settled c) (h' : Alike c c')
    (hnew : ∀ s, 0 < (c'.ent (.entry s)).ref →
      0 < (c.ent (.entry s)).ref ∨ (c.ent (.entry s)).valid ≠ 0) : Settled c' := by
  intro s hs
  rw [h'.valid]
  rcases hnew s hs with hpos | hv
  · exact h s hpos
  · exact hv

variable [DecidableEq S]

/-- What is known of the slot that `eget` returns: it caches the entry, or it is empty and nothing
caches the entry. -/
inductive Got (p : Ent S) (name : List UInt8) (c c' : Cache S) (s : S) : Prop where
  | hit (found : c.hit p name = some s) (valid : (c'.ent (.entry s)).valid = 1)
    (parent : (c'.ent (.entry s)).parent = some p)
      (home : (c'.ent (.entry s)).home = (c.ent p).born)
      (named : sameName (c'.ent (.entry s)).filename name = true) (settled : Settled c')
  | miss (unused : (c.ent (.entry s)).ref = 0) (valid : (c'.ent (.entry s)).valid = 0)
      (ref : (c'.ent (.entry s)).ref = 1)
      (settled : ∀ t, t ≠ s → 0 < (c'.ent (.entry t)).ref → (c'.ent (.entry t)).valid ≠ 0)
      (none : c'.hit p name = none)

omit [DecidableEq S] in
/-- `search` leaves the entries as they are. -/
theorem search_same (c : Cache S) :
    Ensures search c fun _ c' ↦ Same c c' := by
  unfold search
  rw [ensures_bind, ensures_get]
  split
  · exact ensures_pure.mpr (.refl c)
  · rw [ensures_bind, ensures_set, ensures_pure]
    exact .of_ent rfl rfl

omit [DecidableEq S] in
/-- `isdirempty` leaves the entries as they are. -/
theorem isdirempty_same (c : Cache S) : Ensures isdirempty c fun _ c' ↦ Same c c' := by
  unfold isdirempty
  rw [ensures_bind, ensures_get]
  split
  · exact ensures_pure.mpr (.refl c)
  · rw [ensures_bind, ensures_set, ensures_pure]
    exact .of_ent rfl rfl

omit [DecidableEq S] in
/-- `alloc_clus` leaves the entries as they are. -/
theorem allocClus_same (c : Cache S) : Ensures allocClus c fun _ c' ↦ Same c c' := by
  unfold allocClus
  rw [ensures_bind, ensures_get]
  split
  · exact ensures_halt
  · rw [ensures_bind, ensures_set, ensures_pure]
    exact .of_ent rfl rfl

/-- `eput` of a slot that is not filled. -/
theorem eput_empty {c : Cache S} {s : S} (hv : (c.ent (.entry s)).valid = 0) :
    Ensures (eput (.entry s)) c fun _ c' ↦ c' = { c with
      ent := update c.ent (.entry s)
        { c.ent (.entry s) with ref := (c.ent (.entry s)).ref - 1 } } := by
  unfold eput
  rw [ensures_bind, ensures_get, eputLoop, ensures_bind, ensures_get]
  dsimp only
  rw [if_neg (by simp [hv])]
  unfold setEnt
  rw [ensures_modify]

variable [Fintype S] {d : Ent S → Int}

/-- The first reference of a slot that is filled: it holds its parent from now on. -/
theorem edup_unused {c : Cache S} (h : Sound d c) {s : S} {p : Ent S}
    (hr : (c.ent (.entry s)).ref = 0) (hv : (c.ent (.entry s)).valid ≠ 0)
    (hp : (c.ent (.entry s)).parent = some p) :
    Ensures (edup (.entry s)) c fun _ c' ↦
      Sound (fun x ↦ d x + holds (some (.entry s)) x - holds (some p) x) c' ∧ Alike c c' ∧
        (∀ x, (c.ent x).ref ≤ (c'.ent x).ref) ∧
          ∀ x, x ≠ .entry s → (c'.ent x).ref = (c.ent x).ref := by
  have hle : ∀ x, (c.ent x).ref ≤ (update c.ent (.entry s)
      { c.ent (.entry s) with ref := (c.ent (.entry s)).ref + 1 } x).ref := by
    intro x
    by_cases hx : x = .entry s
    · rw [hx, update_self]
      exact Nat.le_succ _
    · rw [update_of_ne hx]
  have halike := alike_update c (.entry s) (f := fun x ↦ { x with ref := x.ref + 1 })
    fun _ ↦ ⟨rfl, rfl, rfl, rfl, rfl, rfl⟩
  unfold edup setEnt
  rw [ensures_modify]
  refine ⟨⟨?_, h.shape.alike halike rfl ?_⟩, halike, hle, ?_⟩
  · apply count_update h.count s
    intro x
    have hold : c.link s = none := Dirent.link_of_unused hr
    have hnew : Dirent.link { c.ent (.entry s) with ref := (c.ent (.entry s)).ref + 1 } =
        some p := by
      unfold Dirent.link
      simp [hv, hp]
    rw [hold, hnew, holds_none]
    push_cast
    omega
  · intro a t hv' hr' hp' ht'
    exact h.shape.order a t hv' (Nat.le_zero.mp (hr' ▸ hle _)) hp' (Nat.le_zero.mp (ht' ▸ hle _))
  · intro x hx
    dsimp only
    rw [update_of_ne hx]

/-- A slot that is recycled is not the parent of a cached entry. -/
theorem Sound.victim_childless {c : Cache S} (h : Sound d c) (hd : ∀ x, 0 ≤ d x)
    {s : S} (hvictim : c.victim = some s) {t : S} (hv : (c.ent (.entry t)).valid = 1) :
    (c.ent (.entry t)).parent ≠ some (.entry s) := by
  intro hp
  obtain ⟨-, hunused⟩ := lastWith_some hvictim
  rw [decide_eq_true_iff] at hunused
  rcases Nat.eq_zero_or_pos (c.ent (.entry t)).ref with hr | hr
  · -- an unused child stands behind and would have been taken
    have hbefore := h.shape.order t s hv hr hp hunused
    have := lastWith_before h.shape.nodup hvictim hbefore
    rw [decide_eq_false_iff_not] at this
    exact this hr
  · -- a child in use holds the slot
    have := h.parent_pos hd hr (by rw [hv]; decide) hp
    omega

omit [DecidableEq S] [Fintype S] in
/-- A slot that is in use and is nobody's parent changes. -/
theorem Shape.slot {c c' : Cache S} (h : Shape c) {s : S} (horder : c'.order = c.order)
    (hrest : ∀ x, x ≠ .entry s → c'.ent x = c.ent x)
    (hchild : ∀ t, (c.ent (.entry t)).valid = 1 → (c.ent (.entry t)).parent ≠ some (.entry s))
    (hused : 0 < (c'.ent (.entry s)).ref)
    (hparent : (c'.ent (.entry s)).valid ≠ 0 → ∃ p, (c'.ent (.entry s)).parent = some p)
    (hhome : ∀ p, (c'.ent (.entry s)).valid = 1 → (c'.ent (.entry s)).parent = some p →
      p ≠ .entry s ∧ (c.ent p).valid ≠ 0 ∧ (c'.ent (.entry s)).home = (c.ent p).born) :
    Shape c' := by
  have hne : ∀ t, t ≠ s → c'.ent (.entry t) = c.ent (.entry t) :=
    fun t ht ↦ hrest _ (by simpa using ht)
  constructor
  · rw [horder]
    exact h.nodup
  · rw [horder]
    exact h.all
  · rw [hrest _ (by simp)]
    exact h.root
  · intro t hv
    by_cases ht : t = s
    · subst ht
      exact hparent hv
    · rw [hne t ht] at hv ⊢
      exact h.parent t hv
  · intro t p hv hp
    by_cases ht : t = s
    · subst ht
      obtain ⟨hps, hpv, hh⟩ := hhome p hv hp
      rw [hrest p hps]
      exact ⟨hpv, hh⟩
    · rw [hne t ht] at hv hp ⊢
      have hps : p ≠ .entry s := by
        rintro rfl
        exact hchild t hv hp
      rw [hrest p hps]
      exact h.home t p hv hp
  · intro a t hv hr hp hr'
    have ha : a ≠ s := by
      rintro rfl
      omega
    have ht : t ≠ s := by
      rintro rfl
      omega
    rw [hne a ha] at hv hr hp
    rw [hne t ht] at hr'
    rw [horder]
    exact h.order a t hv hr hp hr'

/-- A slot is recycled. -/
theorem recycle_sound {c : Cache S} (h : Sound d c) (hd : ∀ x, 0 ≤ d x) {s : S}
    (hvictim : c.victim = some s) :
    Ensures (setEnt (.entry s) fun x ↦
        { x with ref := 1, off := 0, valid := 0, dirty := false }) c fun _ c' ↦
      Sound (fun x ↦ d x + holds (some (.entry s)) x) c' ∧
        (c'.ent (.entry s)).valid = 0 ∧ (c'.ent (.entry s)).ref = 1 ∧
        c'.order = c.order ∧ ∀ x, x ≠ .entry s → c'.ent x = c.ent x := by
  obtain ⟨-, hunused⟩ := lastWith_some hvictim
  rw [decide_eq_true_iff] at hunused
  unfold setEnt
  rw [ensures_modify]
  have hrest : ∀ x, x ≠ .entry s → update c.ent (.entry s)
      { c.ent (.entry s) with ref := 1, off := 0, valid := 0, dirty := false } x = c.ent x :=
    fun x hx ↦ update_of_ne hx _ _
  refine ⟨⟨?_, ?_⟩, by simp, by simp, rfl, hrest⟩
  · apply count_update h.count s
    intro x
    have hold : c.link s = none := Dirent.link_of_unused hunused
    rw [hold, Dirent.link_of_valid rfl, holds_none, hunused]
    push_cast
    omega
  · refine h.shape.slot (s := s) ?_ hrest ?_ ?_ ?_ ?_
    · rfl
    · intro t hv
      exact h.victim_childless hd hvictim hv
    · simp
    · simp
    · simp

/-- `eget` hands out the slot that it returns. -/
theorem eget_sound {c : Cache S} (h : Sound d c) (hd : ∀ x, 0 ≤ d x) (hs : Settled c) {p : Ent S}
    (name : List UInt8) (hp : 0 < (c.ent p).ref) :
    Ensures (eget p name) c fun s c' ↦ Sound (fun x ↦ d x + holds (some (.entry s)) x) c' ∧
      Kept c c' ∧ Got p name c c' s := by
  unfold eget
  rw [ensures_bind, ensures_get]
  cases hhit : c.hit p name with
  | some s =>
    have hcaches := List.find?_some hhit
    unfold Cache.caches at hcaches
    rw [decide_eq_true_iff] at hcaches
    obtain ⟨hv, hpar, hname⟩ := hcaches
    have hv0 : (c.ent (.entry s)).valid ≠ 0 := by
      rw [hv]
      decide
    have hgot : ∀ {c' : Cache S}, Alike c c' → (∀ x, x ≠ .entry s → x ≠ p →
        (c'.ent x).ref = (c.ent x).ref) → Got p name c c' s := by
      intro c' h' hr'
      refine .hit hhit ?_ ?_ ?_ ?_ ?_
      · rw [h'.valid, hv]
      · rw [h'.parent, hpar]
      · rw [h'.home]
        exact (h.shape.home s p hv hpar).2
      · rw [h'.name, hname]
      · apply hs.dup h'
        intro t ht
        by_cases hts : t = s
        · right
          rw [hts, hv]
          decide
        · left
          by_cases htp : Ent.entry t = p
          · rw [htp]
            exact hp
          · rwa [hr' _ (by simpa using hts) htp] at ht
    simp only [ensures_bind, ensures_doIf, ensures_pure]
    rcases Nat.eq_zero_or_pos (c.ent (.entry s)).ref with hr | hr
    · apply (edup_unused h hr hv0 hpar).mono
      rintro _ c1 ⟨h1, halike1, hle1, hsame1⟩
      refine ⟨fun _ ↦ ?_, fun hne ↦ absurd hr hne⟩
      have hp1 : 0 < (c1.ent p).ref := hp.trans_le (hle1 p)
      apply (edup_sound h1 (.inr hp1)).mono
      rintro _ c2 ⟨h2, halike2, hle2, hsame2⟩
      have halike := halike1.trans halike2
      refine ⟨h2.congr ?_, halike.kept fun x ↦ (hle1 x).trans (hle2 x), hgot halike ?_⟩
      · intro x
        omega
      · intro x hxs hxp
        rw [hsame2 x hxp, hsame1 x hxs]
    · apply (edup_sound h (.inr hr)).mono
      rintro _ c1 ⟨h1, halike1, hle1, hsame1⟩
      refine ⟨fun hzero ↦ absurd hzero (by omega), fun _ ↦ ?_⟩
      exact ⟨h1, halike1.kept hle1, hgot halike1 fun x hx _ ↦ hsame1 x hx⟩
  | none =>
    cases hvictim : c.victim with
    | none => exact ensures_halt
    | some s =>
      obtain ⟨-, hunused⟩ := lastWith_some hvictim
      rw [decide_eq_true_iff] at hunused
      simp only [ensures_bind, ensures_pure]
      apply (recycle_sound h hd hvictim).mono
      rintro _ c1 ⟨h1, hv1, hr1, horder1, hrest1⟩
      refine ⟨h1, ?_, .miss hunused hv1 hr1 ?_ ?_⟩
      · intro e he
        have hne : e ≠ .entry s := by
          rintro rfl
          omega
        rw [hrest1 e hne]
        exact ⟨he, rfl, rfl, rfl, rfl⟩
      · intro t hts ht
        rw [hrest1 _ (by simpa using hts)] at ht ⊢
        exact hs t ht
      · unfold Cache.hit at hhit ⊢
        rw [List.find?_eq_none] at hhit ⊢
        intro t ht
        rw [horder1] at ht
        have hold := hhit t ht
        unfold Cache.caches at hold ⊢
        by_cases hts : t = s
        · rw [hts, hv1]
          simp
        · rw [hrest1 _ (by simpa using hts)]
          exact hold

/-- An empty slot is filled: it holds its parent from now on. -/
theorem fill_sound {c : Cache S} (h : Sound d c) {s : S} {dp : Ent S} (name : List UInt8)
    (x : Found) (hv : (c.ent (.entry s)).valid = 0) (hr : 0 < (c.ent (.entry s)).ref)
    (hs : ∀ t, t ≠ s → 0 < (c.ent (.entry t)).ref → (c.ent (.entry t)).valid ≠ 0)
    (hdp : 0 < (c.ent dp).ref) (hdpv : (c.ent dp).valid ≠ 0) :
    Ensures (fill s dp name x) c fun _ c' ↦ Sound d c' ∧ Settled c' ∧
      ∀ e, e ≠ .entry s → (c.ent e).ref ≤ (c'.ent e).ref ∧ (c'.ent e).valid = (c.ent e).valid ∧
        (c'.ent e).parent = (c.ent e).parent ∧ (c'.ent e).born = (c.ent e).born ∧
        (c'.ent e).attr = (c.ent e).attr := by
  have hne : dp ≠ .entry s := by
    rintro rfl
    exact hdpv hv
  unfold fill
  apply (edup_sound h (.inr hdp)).bind
  rintro _ c1 ⟨h1, halike1, hle1, hsame1⟩
  have hv1 : (c1.ent (.entry s)).valid = 0 := by rw [halike1.valid, hv]
  have hr1 : 0 < (c1.ent (.entry s)).ref := hr.trans_le (hle1 _)
  have hrest : ∀ (y : Dirent S) e, e ≠ .entry s →
      update c1.ent (.entry s) y e = c1.ent e :=
    fun y e he ↦ update_of_ne he _ _
  rw [ensures_modify]
  refine ⟨⟨?_, ?_⟩, ?_, ?_⟩
  · apply count_update h1.count s
    intro e
    have hold : c1.link s = none := Dirent.link_of_valid hv1
    rw [hold, holds_none, Dirent.link_of_ref]
    · dsimp only
      omega
    · exact hr1
    · change (1 : Int) ≠ 0
      decide
  · refine h1.shape.slot (s := s) ?_ (hrest _) ?_ ?_ ?_ ?_
    · rfl
    · intro t hvt hpt
      exact (h1.shape.home t _ hvt hpt).1 hv1
    · dsimp only
      rw [update_self]
      exact hr1
    · intro _
      dsimp only
      rw [update_self]
      exact ⟨dp, rfl⟩
    · intro p _ hp
      dsimp only at hp ⊢
      rw [update_self] at hp ⊢
      obtain rfl := Option.some.inj hp
      rw [halike1.valid]
      exact ⟨hne, hdpv, rfl⟩
  · intro t ht
    dsimp only at ht ⊢
    by_cases hts : t = s
    · subst hts
      rw [update_self]
      change (1 : Int) ≠ 0
      decide
    · have hne' : Ent.entry t ≠ .entry s := by simpa using hts
      rw [hrest _ _ hne'] at ht ⊢
      have hpos : 0 < (c.ent (.entry t)).ref ∨ (c.ent (.entry t)).valid ≠ 0 := by
        by_cases htd : Ent.entry t = dp
        · rw [htd]
          exact .inl hdp
        · left
          rwa [hsame1 _ htd] at ht
      rw [halike1.valid]
      exact hpos.elim (hs t hts) id
  · intro e he
    dsimp only
    rw [hrest _ e he]
    exact ⟨hle1 e, halike1.valid e, halike1.parent e, halike1.born e, halike1.attr e⟩

omit [DecidableEq S] [Fintype S] in
/-- What is kept by `eget` and a change of the slot that it returned. -/
theorem Kept.of_rest {c c1 c2 : Cache S} {s : S} (h : Kept c c1)
    (hs : (c.ent (.entry s)).ref = 0)
    (hrest : ∀ e, e ≠ .entry s → (c1.ent e).ref ≤ (c2.ent e).ref ∧
      (c2.ent e).valid = (c1.ent e).valid ∧ (c2.ent e).parent = (c1.ent e).parent ∧
      (c2.ent e).born = (c1.ent e).born ∧ (c2.ent e).attr = (c1.ent e).attr) : Kept c c2 := by
  intro e he
  have hne : e ≠ .entry s := by
    rintro rfl
    omega
  obtain ⟨hr1, hv1, hp1, hb1, ha1⟩ := h e he
  obtain ⟨hr2, hv2, hp2, hb2, ha2⟩ := hrest e hne
  exact ⟨hr1.trans_le hr2, by rw [hv2, hv1], by rw [hp2, hp1], by rw [hb2, hb1],
    by rw [ha2, ha1]⟩

/-- `dirlookup` hands out the entry that it finds. -/
theorem dirlookup_sound {c : Cache S} (h : Sound d c) (hd : ∀ x, 0 ≤ d x) (hs : Settled c)
    {dp : Ent S} (name : List UInt8) (hdp : 0 < (c.ent dp).ref) :
    Ensures (dirlookup dp name) c fun r c' ↦ Sound (fun x ↦ d x + holds r x) c' ∧ Settled c' ∧
      Kept c c' ∧ ((c.ent dp).valid = 1 → r = none → c'.hit dp name = none) := by
  have hnone : Sound (fun x ↦ d x + holds none x) c := by
    apply h.congr
    intro x
    rw [holds_none, add_zero]
  have hedup : ∀ {e : Ent S}, 0 < (c.ent e).ref →
      Ensures (edup e >>= fun _ ↦ pure (some e)) c fun r c' ↦
        Sound (fun x ↦ d x + holds r x) c' ∧ Settled c' ∧ Kept c c' ∧
          ((c.ent dp).valid = 1 → r = none → c'.hit dp name = none) := by
    intro e he
    simp only [ensures_bind, ensures_pure]
    apply (edup_sound h (.inr he)).mono
    rintro _ c1 ⟨h1, halike1, hle1, hsame1⟩
    refine ⟨h1, ?_, halike1.kept hle1, by simp⟩
    apply hs.dup halike1
    intro t ht
    left
    by_cases hte : Ent.entry t = e
    · rw [hte]
      exact he
    · rwa [hsame1 _ hte] at ht
  unfold dirlookup
  rw [ensures_bind, ensures_get]
  simp only [ensures_ite]
  refine ⟨fun _ ↦ ensures_halt, fun _ ↦ ⟨fun _ ↦ hedup hdp, fun _ ↦ ⟨fun _ ↦ ?_, fun _ ↦
    ⟨fun hv ↦ ?_, fun hv ↦ ?_⟩⟩⟩⟩
  · cases dp with
    | root => exact hedup hdp
    | entry s =>
      cases hp : (c.ent (.entry s)).parent with
      | none =>
        rw [ensures_pure]
        refine ⟨hnone, hs, .refl c, ?_⟩
        intro hv _
        obtain ⟨p, hp'⟩ := h.shape.parent s (by rw [hv]; decide)
        rw [hp] at hp'
        cases hp'
      | some p => exact hedup (h.parent_pos hd hdp (hs s hdp) hp)
  · rw [ensures_pure]
    exact ⟨hnone, hs, .refl c, fun hv' ↦ absurd hv' hv⟩
  · apply (eget_sound h hd hs name hdp).bind
    rintro s c1 ⟨h1, hkept1, hgot1⟩
    rw [ensures_bind, ensures_get, ensures_ite, ensures_pure]
    cases hgot1 with
    | hit _ hvalid _ _ _ hsettled =>
      exact ⟨fun _ ↦ ⟨h1, hsettled, hkept1, by simp⟩, fun hnot ↦ absurd hvalid hnot⟩
    | miss hunused hvalid href hsettled hhit =>
      refine ⟨fun hone ↦ ?_, fun _ ↦ ?_⟩
      · rw [hvalid] at hone
        cases hone
      apply (search_same c1).bind
      intro r c2 h2
      have hkept2 := hkept1.trans h2.kept
      have hv2 : (c2.ent (.entry s)).valid = 0 := by rw [h2.valid, hvalid]
      have hr2 : (c2.ent (.entry s)).ref = 1 := by rw [h2.ref, href]
      have hs2 : ∀ t, t ≠ s → 0 < (c2.ent (.entry t)).ref → (c2.ent (.entry t)).valid ≠ 0 := by
        intro t ht
        rw [h2.ref, h2.valid]
        exact hsettled t ht
      obtain ⟨hrdp, hvdp, -⟩ := hkept2 dp hdp
      cases r with
      | some x =>
        simp only [ensures_bind, ensures_pure]
        refine (fill_sound (h1.same h2) name x hv2 (by omega) hs2 hrdp ?_).mono ?_
        · rw [hvdp]
          omega
        · rintro _ c3 ⟨h3, hs3, hrest3⟩
          exact ⟨h3, hs3, hkept2.of_rest hunused hrest3, by simp⟩
      | none =>
        simp only [ensures_bind, ensures_pure]
        apply ((eput_sound hd (h1.same h2)).and (eput_empty hv2)).mono
        rintro _ c3 ⟨⟨h3, hle3, halike3⟩, heq3⟩
        have hrest3 : ∀ e, e ≠ .entry s → c3.ent e = c2.ent e := by
          intro e he
          rw [heq3]
          exact update_of_ne he _ _
        refine ⟨h3.congr fun x ↦ by rw [holds_none, add_zero], ?_, ?_, ?_⟩
        · intro t ht
          by_cases hts : t = s
          · subst hts
            rw [heq3] at ht
            dsimp only at ht
            rw [update_self, hr2] at ht
            cases ht
          · rw [hrest3 _ (by simpa using hts)] at ht ⊢
            exact hs2 t hts ht
        · apply hkept2.of_rest hunused
          intro e he
          rw [hrest3 e he]
          exact ⟨le_rfl, rfl, rfl, rfl, rfl⟩
        · intro _ _
          have horder : c3.order = c2.order := by rw [heq3]
          rw [← hhit, ← h2.hit]
          unfold Cache.hit Cache.caches
          simp only [horder, halike3.valid, halike3.parent, halike3.name]

/-- `ealloc` hands out the entry that it finds or makes. -/
theorem ealloc_sound {c : Cache S} (h : Sound d c) (hd : ∀ x, 0 ≤ d x) (hs : Settled c)
    {dp : Ent S} (name : List UInt8) (attr : UInt8) (off : Nat) (hdp : 0 < (c.ent dp).ref) :
    Ensures (ealloc dp name attr off) c fun r c' ↦
      Sound (fun x ↦ d x + holds r x) c' ∧ Settled c' := by
  have hnone : Sound (fun x ↦ d x + holds none x) c := by
    apply h.congr
    intro x
    rw [holds_none, add_zero]
  unfold ealloc
  rw [ensures_bind, ensures_get, ensures_ite, ensures_ite, ensures_pure]
  refine ⟨fun _ ↦ ensures_halt, fun _ ↦ ⟨fun _ ↦ ⟨hnone, hs⟩, fun hv ↦ ?_⟩⟩
  rw [not_not] at hv
  cases formatname name with
  | none => exact ensures_pure.mpr ⟨hnone, hs⟩
  | some name =>
    dsimp only
    apply (dirlookup_sound h hd hs name hdp).bind
    rintro r c1 ⟨h1, hs1, hkept1, hhit1⟩
    cases r with
    | some e => exact ensures_pure.mpr ⟨h1, hs1⟩
    | none =>
      obtain ⟨hrdp1, hvdp1, -⟩ := hkept1 dp hdp
      have h1' : Sound d c1 := h1.congr fun x ↦ by rw [holds_none, add_zero]
      dsimp only
      apply (eget_sound h1' hd hs1 name hrdp1).bind
      rintro s c2 ⟨h2, hkept2, hgot2⟩
      obtain ⟨hrdp2, hvdp2, -⟩ := hkept2 dp hrdp1
      cases hgot2 with
      | hit hfound =>
        rw [hhit1 hv rfl] at hfound
        cases hfound
      | miss hunused hvalid href hsettled _ =>
        have hfill : ∀ {c3 : Cache S} (x : Found), Same c2 c3 →
            Ensures (do
              fill s dp (name.take fat32MaxFilename) x
              eunlock (.entry s)
              pure (some (.entry s))) c3 fun r c' ↦
                Sound (fun x ↦ d x + holds r x) c' ∧ Settled c' := by
          intro c3 x h3
          refine (fill_sound (h2.same h3) _ x ?_ ?_ ?_ ?_ ?_).bind ?_
          · rw [h3.valid, hvalid]
          · rw [h3.ref]
            omega
          · intro t ht
            rw [h3.ref, h3.valid]
            exact hsettled t ht
          · rw [h3.ref]
            exact hrdp2
          · rw [h3.valid, hvdp2, hvdp1, hv]
            decide
          · rintro _ c4 ⟨h4, hs4, -⟩
            apply ensures_eunlock
            exact ensures_pure.mpr ⟨h4, hs4⟩
        apply (elock_spec c2 _).bind
        rintro _ c3 ⟨rfl, -⟩
        rw [ensures_ite]
        refine ⟨fun _ ↦ ?_, fun _ ↦ hfill _ (.refl c3)⟩
        apply (allocClus_same c3).bind
        intro clus c4 h4
        exact hfill _ h4

/-! ### Paths -/

/-- `eput`, when the caller gives a reference back that it held. -/
theorem eput_settled {c : Cache S} {e : Ent S} (hd : ∀ x, 0 ≤ d x)
    (h : Sound (fun x ↦ d x + holds (some e) x) c) (hs : Settled c) :
    Ensures (eput e) c fun _ c' ↦ Sound d c' ∧ Settled c' := by
  apply (eput_sound hd h).mono
  rintro _ c' ⟨h', hle, halike⟩
  exact ⟨h', hs.alike halike hle⟩

/-- The entry that a lookup returns. -/
def lookupResult (r : Option (Ent S × List UInt8)) : Option (Ent S) := r.map Prod.fst

/-- The loop of `lookup_path` gives its entry for the one that it returns. -/
theorem lookupElems_sound (parent : Bool) (names : List (List UInt8)) (hd : ∀ x, 0 ≤ d x)
    {c : Cache S} {e : Ent S} (h : Sound (fun x ↦ d x + holds (some e) x) c) (hs : Settled c) :
    Ensures (lookupElems parent names e) c fun r c' ↦
      Sound (fun x ↦ d x + holds (lookupResult r) x) c' ∧ Settled c' := by
  have hgone : ∀ {c1 : Cache S} {e : Ent S}, Sound (fun x ↦ d x + holds (some e) x) c1 →
      Settled c1 → Ensures (eput e >>= fun _ ↦ pure none) c1 fun r c' ↦
        Sound (fun x ↦ d x + holds (lookupResult r) x) c' ∧ Settled c' := by
    intro c1 e h1 hs1
    simp only [ensures_bind, ensures_pure]
    apply (eput_settled hd h1 hs1).mono
    rintro _ c2 ⟨h2, hs2⟩
    refine ⟨h2.congr ?_, hs2⟩
    intro x
    change d x + holds none x = d x
    rw [holds_none, add_zero]
  induction names generalizing c e with
  | nil =>
    rw [lookupElems, ensures_ite, ensures_pure]
    exact ⟨fun _ ↦ hgone h hs, fun _ ↦ ⟨h, hs⟩⟩
  | cons name rest ih =>
    rw [lookupElems, ensures_bind]
    apply (elock_spec c e).mono
    rintro _ c1 ⟨rfl, hpos⟩
    rw [ensures_bind, ensures_get]
    simp only [ensures_ite]
    refine ⟨fun _ ↦ ensures_eunlock (hgone h hs), fun _ ↦ ⟨fun _ ↦ ?_, fun _ ↦ ?_⟩⟩
    · apply ensures_eunlock
      exact ensures_pure.mpr ⟨h, hs⟩
    · apply (dirlookup_sound h (Sound.nonneg_add hd) hs name hpos).bind
      rintro r c2 ⟨h2, hs2, -, -⟩
      cases r with
      | none =>
        apply ensures_eunlock
        apply hgone _ hs2
        exact h2.congr fun x ↦ by rw [holds_none, add_zero]
      | some next =>
        apply ensures_eunlock
        rw [ensures_bind]
        have h2' : Sound (fun x ↦ (d x + holds (some next) x) + holds (some e) x) c2 :=
          h2.congr fun x ↦ by omega
        apply (eput_settled (Sound.nonneg_add hd) h2' hs2).mono
        rintro _ c3 ⟨h3, hs3⟩
        exact ih h3 hs3

/-- `lookup_path` keeps the cache sound. -/
theorem lookupPath_sound {c : Cache S} (h : Sound d c) (hd : ∀ x, 0 ≤ d x) (hs : Settled c)
    {cwd : Ent S} (path : List UInt8) (parent : Bool)
    (hcwd : cwd = .root ∨ 0 < (c.ent cwd).ref) :
    Ensures (lookupPath cwd path parent) c fun r c' ↦
      Sound (fun x ↦ d x + holds (lookupResult r) x) c' ∧ Settled c' := by
  unfold lookupPath
  cases path with
  | nil =>
    rw [ensures_pure]
    refine ⟨h.congr ?_, hs⟩
    intro x
    change d x + holds none x = d x
    rw [holds_none, add_zero]
  | cons b path =>
    have hstart : ∀ {e : Ent S}, e = .root ∨ 0 < (c.ent e).ref →
        Ensures (edup e >>= fun _ ↦ lookupElems parent (elements (b :: path)) e) c fun r c' ↦
          Sound (fun x ↦ d x + holds (lookupResult r) x) c' ∧ Settled c' := by
      intro e he
      apply (edup_sound h he).bind
      rintro _ c1 ⟨h1, halike1, -, hsame1⟩
      apply lookupElems_sound parent _ hd h1
      apply hs.dup halike1
      intro t ht
      left
      by_cases hte : Ent.entry t = e
      · rw [hte]
        exact he.resolve_left (by rw [← hte]; simp)
      · rwa [hsame1 _ hte] at ht
    dsimp only
    split_ifs
    · exact hstart (.inl rfl)
    · exact hstart hcwd

/-- `ename` keeps the cache sound and counts its result. -/
theorem ename_sound {c : Cache S} (h : Sound d c) (hd : ∀ x, 0 ≤ d x) (hs : Settled c)
    {cwd : Ent S} (path : List UInt8) (hcwd : cwd = .root ∨ 0 < (c.ent cwd).ref) :
    Ensures (ename cwd path) c fun r c' ↦ Sound (fun x ↦ d x + holds r x) c' ∧ Settled c' := by
  unfold ename
  apply (lookupPath_sound h hd hs path false hcwd).bind
  rintro r c1 ⟨h1, hs1⟩
  cases r with
  | none => exact ensures_pure.mpr ⟨h1, hs1⟩
  | some r => exact ensures_pure.mpr ⟨h1, hs1⟩

omit [Fintype S] in
/-- `create` enters the numbers of a device. -/
theorem setDevice_same (c : Cache S) (e : Ent S) (kind : NodeKind) (major minor : Nat) :
    Ensures (doIf (kind = .device) (setEnt e fun d ↦
      { d with firstClus := major, fileSize := minor, dirty := true })) c fun _ c' ↦ Same c c' := by
  rw [ensures_doIf]
  refine ⟨fun _ ↦ ?_, fun _ ↦ .refl c⟩
  exact setEnt_same _ _ (fun _ ↦ ⟨rfl, rfl, rfl, rfl, rfl, rfl⟩) fun _ ↦ rfl

/-- `create` hands out the entry that it returns, and gives the directory back. -/
theorem create_sound {c : Cache S} (h : Sound d c) (hd : ∀ x, 0 ≤ d x) (hs : Settled c)
    {cwd : Ent S} (path : List UInt8) (kind : NodeKind) (major minor off : Nat)
    (hcwd : cwd = .root ∨ 0 < (c.ent cwd).ref) :
    Ensures (create cwd path kind major minor off) c fun r c' ↦
      Sound (fun x ↦ d x + holds r x) c' ∧ Settled c' := by
  unfold create
  apply (lookupPath_sound h hd hs path true hcwd).bind
  rintro r c1 ⟨h1, hs1⟩
  cases r with
  | none => exact ensures_pure.mpr ⟨h1, hs1⟩
  | some r =>
    obtain ⟨dp, name⟩ := r
    have hdp : lookupResult (some (dp, name)) = some dp := rfl
    rw [hdp] at h1
    dsimp only
    apply (elock_spec c1 dp).bind
    rintro _ c2 ⟨rfl, hpos⟩
    apply (ealloc_sound h1 (Sound.nonneg_add hd) hs1 name kind.attr off hpos).bind
    rintro r c3 ⟨h3, hs3⟩
    cases r with
    | none =>
      dsimp only
      apply ensures_eunlock
      rw [ensures_bind]
      have h4 : Sound (fun x ↦ d x + holds (some dp) x) c3 :=
        h3.congr fun x ↦ by rw [holds_none, add_zero]
      apply (eput_settled hd h4 hs3).mono
      rintro _ c5 ⟨h5, hs5⟩
      rw [ensures_pure]
      exact ⟨h5.congr fun x ↦ by rw [holds_none, add_zero], hs5⟩
    | some e =>
      have h3' : Sound (fun x ↦ (d x + holds (some e) x) + holds (some dp) x) c3 :=
        h3.congr fun x ↦ by omega
      dsimp only
      rw [ensures_bind, ensures_get, ensures_ite]
      constructor
      · intro _
        apply ensures_eunlock
        apply (eput_settled (Sound.nonneg_add hd) h3 hs3).bind
        rintro _ c5 ⟨h5, hs5⟩
        apply (eput_settled hd h5 hs5).bind
        rintro _ c6 ⟨h6, hs6⟩
        rw [ensures_pure]
        exact ⟨h6.congr fun x ↦ by rw [holds_none, add_zero], hs6⟩
      · intro _
        apply (setDevice_same c3 e kind major minor).bind
        intro _ c4 hsame4
        apply ensures_eunlock
        apply (eput_settled (Sound.nonneg_add hd) (h3'.same hsame4) (hs3.same hsame4)).bind
        rintro _ c6 ⟨h6, hs6⟩
        apply (elock_spec c6 e).bind
        rintro _ c7 ⟨rfl, -⟩
        exact ensures_pure.mpr ⟨h6, hs6⟩

/-! ### Removal -/

/-- `eremove`: the slot is no cached entry any more, but still holds its parent. -/
theorem eremove_sound {c : Cache S} (h : Sound d c) (hs : Settled c) (e : Ent S) :
    Ensures (eremove e) c fun _ c' ↦ Sound d c' ∧ Settled c' := by
  set f : Dirent S → Dirent S := fun x ↦ if x.valid ≠ 1 then x else { x with valid := -1 } with hf
  have hvalid : ∀ x, (f x).valid ≠ 0 ↔ x.valid ≠ 0 := by
    intro x
    rw [hf]
    dsimp only
    split_ifs with hone
    · rfl
    · rw [not_not] at hone
      rw [hone]
      change (-1 : Int) ≠ 0 ↔ (1 : Int) ≠ 0
      decide
  have hone : ∀ x, (f x).valid = 1 → False := by
    intro x hx
    rw [hf] at hx
    dsimp only at hx
    split_ifs at hx with hnot
    · exact hnot hx
    · change (-1 : Int) = 1 at hx
      omega
  have hrest : ∀ x, (f x).ref = x.ref ∧ (f x).parent = x.parent ∧ (f x).born = x.born ∧
      (f x).home = x.home := by
    intro x
    rw [hf]
    dsimp only
    split_ifs
    · exact ⟨rfl, rfl, rfl, rfl⟩
    · exact ⟨rfl, rfl, rfl, rfl⟩
  change Ensures (setEnt e f) c _
  unfold setEnt
  rw [ensures_modify]
  set ent := update c.ent e (f (c.ent e)) with hent
  have hent_ref : ∀ x, (ent x).ref = (c.ent x).ref ∧ (ent x).parent = (c.ent x).parent ∧
      (ent x).born = (c.ent x).born ∧ (ent x).home = (c.ent x).home ∧
      ((ent x).valid ≠ 0 ↔ (c.ent x).valid ≠ 0) ∧
      ((ent x).valid = 1 → (c.ent x).valid = 1) := by
    intro x
    rw [hent]
    by_cases hx : x = e
    · rw [hx, update_self]
      obtain ⟨hr, hp, hb, hh⟩ := hrest (c.ent e)
      exact ⟨hr, hp, hb, hh, hvalid _, fun h1 ↦ (hone _ h1).elim⟩
    · rw [update_of_ne hx]
      exact ⟨rfl, rfl, rfl, rfl, Iff.rfl, id⟩
  have hlink : Cache.link { c with ent := ent } = c.link := by
    ext s : 1
    obtain ⟨hr, hp, -, -, hv, -⟩ := hent_ref (.entry s)
    unfold Cache.link Dirent.link
    dsimp only
    rw [hr, hp]
    simp only [hv]
  refine ⟨⟨?_, h.shape.nodup, h.shape.all, ?_, ?_, ?_, ?_⟩, ?_⟩
  · intro x
    rw [hlink]
    dsimp only
    rw [(hent_ref x).1]
    exact h.count x
  · exact (hent_ref _).2.2.2.2.1.mpr h.shape.root
  · intro s hv
    obtain ⟨-, hp, -, -, hv', -⟩ := hent_ref (.entry s)
    dsimp only at hv ⊢
    rw [hp]
    exact h.shape.parent s (hv'.mp hv)
  · intro s p hv hp
    obtain ⟨-, hps, -, hh, -, hv1⟩ := hent_ref (.entry s)
    obtain ⟨-, -, hb, -, hv', -⟩ := hent_ref p
    dsimp only at hv hp ⊢
    rw [hps] at hp
    obtain ⟨hpv, hhome⟩ := h.shape.home s p (hv1 hv) hp
    exact ⟨hv'.mpr hpv, by rw [hh, hb, hhome]⟩
  · intro s t hv hr hp hr'
    obtain ⟨hrs, hps, -, -, -, hv1⟩ := hent_ref (.entry s)
    dsimp only at hv hr hp hr'
    rw [hrs] at hr
    rw [hps] at hp
    rw [(hent_ref (.entry t)).1] at hr'
    exact h.shape.order s t (hv1 hv) hr hp hr'
  · intro s hr
    dsimp only at hr ⊢
    rw [(hent_ref _).1] at hr
    exact (hent_ref _).2.2.2.2.1.mpr (hs s hr)

/-- `sys_remove` behind `isdirempty`, with the cache as it was when the entry was locked. -/
def removeFound (e : Ent S) (c : Cache S) (empty : Bool) : Cached S Bool :=
  if empty = false then do
    eunlock e
    eput e
    pure false
  else
    match (c.ent e).parent with
    | none => Prog.halt "elock"
    | some p => do
      elock p
      eremove e
      eunlock p
      eunlock e
      eput e
      pure true

/-- `sys_remove` keeps no reference. -/
theorem sysRemove_sound {c : Cache S} (h : Sound d c) (hd : ∀ x, 0 ≤ d x) (hs : Settled c)
    {cwd : Ent S} (path : List UInt8) (hcwd : cwd = .root ∨ 0 < (c.ent cwd).ref) :
    Ensures (sysRemove cwd path) c fun _ c' ↦ Sound d c' ∧ Settled c' := by
  unfold sysRemove
  rw [ensures_ite, ensures_pure]
  refine ⟨fun _ ↦ ⟨h, hs⟩, fun _ ↦ ?_⟩
  apply (ename_sound h hd hs path hcwd).bind
  rintro r c1 ⟨h1, hs1⟩
  cases r with
  | none =>
    rw [ensures_pure]
    exact ⟨h1.congr fun x ↦ by rw [holds_none, add_zero], hs1⟩
  | some e =>
    have hend : ∀ {c2 : Cache S} (b : Bool), Sound (fun x ↦ d x + holds (some e) x) c2 →
        Settled c2 → Ensures (do
          eunlock e
          eput e
          pure b) c2 fun _ c' ↦ Sound d c' ∧ Settled c' := by
      intro c2 b h2 hs2
      simp only [ensures_bind, ensures_pure]
      apply (eunlock_spec c2 e).mono
      rintro _ c3 rfl
      exact eput_settled hd h2 hs2
    dsimp only
    apply (elock_spec c1 e).bind
    rintro _ c2 ⟨rfl, -⟩
    have hrest : ∀ {c3 : Cache S} (empty : Bool), Same c2 c3 →
        Ensures (removeFound e c2 empty) c3 fun _ c' ↦ Sound d c' ∧ Settled c' := by
      intro c3 empty h3
      unfold removeFound
      rw [ensures_ite]
      refine ⟨fun _ ↦ hend false (h1.same h3) (hs1.same h3), fun _ ↦ ?_⟩
      split
      · exact ensures_halt
      · rename_i p _
        apply (elock_spec c3 p).bind
        rintro _ c4 ⟨rfl, -⟩
        apply (eremove_sound (h1.same h3) (hs1.same h3) e).bind
        rintro _ c5 ⟨h5, hs5⟩
        apply ensures_eunlock
        exact hend true h5 hs5
    rw [ensures_bind, ensures_get, ensures_ite]
    constructor
    · intro _
      apply (isdirempty_same c2).bind
      intro empty c3 h3
      exact hrest empty h3
    · intro _
      rw [ensures_bind, ensures_pure]
      exact hrest true (.refl c2)

end Xv6K210.Ecache
