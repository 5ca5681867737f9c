import Xv6K210.Mount.Walk

/-!
# Lookups find what the contents hold

Source `kernel/fs/fat32.c:680–716,835–950`.
-/

namespace Xv6K210.Mount

open Xv6K210.Base Xv6K210.Ecache Prog Function

variable {S α : Type} [DecidableEq S] {v : Fs.Volume} {st st' : Store S}

/-! ### Routines of the parts -/

omit [DecidableEq S] in
private theorem ensures_lift {x : Cached S α} {post : α → Store S → Prop}
    (h : Ensures x st.cache fun a c ↦ post a { st with cache := c }) :
    Ensures (lift x) st post := by
  constructor
  intro a t heq
  unfold lift at heq
  cases hx : x st.cache with
  | error msg =>
    rw [hx] at heq
    cases heq
  | ok p =>
    rw [hx] at heq
    cases heq
    exact h.of_ok p.1 p.2 hx

omit [DecidableEq S] in
/-- The specification of a routine on the volume. -/
theorem ensures_ofVolume {x : Except Fs.Panic α} {post : α → Store S → Prop}
    (h : ∀ a, x = .ok a → post a st) : Ensures (ofVolume x) st post := by
  unfold ofVolume
  cases x with
  | error p => exact ensures_halt
  | ok a => exact ensures_pure.mpr (h a rfl)

/-- Only the cursor of an entry moves. -/
theorem setDirent_seek {e : Ent S} {x : Fs.Dirent} (h : Fs.SameEntry (st.dirent e) x)
    {post : Unit → Store S → Prop}
    (hpost : post () { st with cursor := update st.cursor e (x.curClus, x.clusCnt) }) :
    Ensures (setDirent e x) st post := by
  unfold setDirent
  rw [ensures_modify]
  have hent : update st.cache.ent e { st.cache.ent e with
      filename := x.filename, attr := x.attr, firstClus := x.firstClus,
      fileSize := x.fileSize, dirty := x.dirty, valid := x.valid } = st.cache.ent := by
    rw [h]
    exact update_eq_self e _
  rw [hent]
  exact hpost

/-- An entry is left as it was. -/
theorem setDirent_self {e : Ent S} {post : Unit → Store S → Prop} (hpost : post () st) :
    Ensures (setDirent e (st.dirent e)) st post := by
  apply setDirent_seek (rfl : Fs.SameEntry (st.dirent e) (st.dirent e))
  have hcursor : update st.cursor e ((st.dirent e).curClus, (st.dirent e).clusCnt) =
      st.cursor := update_eq_self e _
  rw [hcursor]
  exact hpost

/-! ### The invariant -/

/-- The volume is `v`, with `d` references held by callers, and the filled slots hold what it
holds. -/
structure Fresh [Fintype S] (v : Fs.Volume) (d : Ent S → Int) (st : Store S) : Prop where
  vol : st.vol = v
  sound : Sound d st.cache
  root : HasRoot v st.cache
  fits : ∀ s, (st.cache.ent (.entry s)).valid ≠ 0 → Fits v st.cache s
  start : ∀ e, (st.cache.ent e).valid = 1 → (st.cache.ent e).isDir = true → AtStart (st.dirent e)

/-- Nothing changes that a lookup could see. -/
structure Calm (st st' : Store S) : Prop where
  vol : st'.vol = st.vol
  cursor : st'.cursor = st.cursor
  steady : Steady st.cache st'.cache

omit [DecidableEq S] in
/-- Calm steps compose. -/
theorem Calm.trans {st'' : Store S} (h : Calm st st') (h' : Calm st' st'') : Calm st st'' :=
  ⟨h'.vol.trans h.vol, h'.cursor.trans h.cursor, h.steady.trans h'.steady⟩

variable [Fintype S] {d d' : Ent S → Int}

/-- A calm step keeps a fresh state. -/
theorem Fresh.calm (h : Fresh v d st) (hcalm : Calm st st') (hsound : Sound d' st'.cache) :
    Fresh v d' st' := by
  obtain ⟨n, hn⟩ := hcalm.steady.live .root h.root.valid
  refine ⟨hcalm.vol.trans h.vol, hsound, ⟨?_, ?_, ?_⟩, ?_, ?_⟩
  · rw [hn]
    exact h.root.valid
  · rw [hn]
    exact h.root.clus
  · rw [hn]
    exact h.root.dir
  · intro s hv
    rw [hcalm.steady.valid] at hv
    exact (h.fits s hv).steady hcalm.steady
  · intro e hv hdir
    rw [hcalm.steady.valid] at hv
    obtain ⟨m, hm⟩ := hcalm.steady.live e hv
    rw [hm] at hdir
    have hstart := h.start e hv hdir
    unfold AtStart Store.dirent at hstart ⊢
    rw [hcalm.cursor, hm]
    exact hstart

/-- A slot without contents changes that is nobody's parent, and is left without contents. -/
theorem Fresh.empty {s : S} (h : Fresh v d st) (hvol : st'.vol = st.vol)
    (hsound : Sound d' st'.cache) (hrest : ∀ e, e ≠ .entry s → st'.cache.ent e = st.cache.ent e)
    (hcursor : ∀ e, e ≠ .entry s → st'.cursor e = st.cursor e)
    (hchild : ∀ t, (st.cache.ent (.entry t)).valid = 1 →
      (st.cache.ent (.entry t)).parent ≠ some (.entry s))
    (hempty : (st'.cache.ent (.entry s)).valid = 0) : Fresh v d' st' := by
  have hroot : st'.cache.ent .root = st.cache.ent .root := hrest _ (by simp)
  refine ⟨hvol.trans h.vol, hsound, ⟨?_, ?_, ?_⟩, ?_, ?_⟩
  · rw [hroot]
    exact h.root.valid
  · rw [hroot]
    exact h.root.clus
  · rw [hroot]
    exact h.root.dir
  · intro t hv
    by_cases hts : t = s
    · rw [hts, hempty] at hv
      exact absurd rfl hv
    · rw [hrest _ (by simpa using hts)] at hv
      exact (h.fits t hv).rest (fun e he ↦ ⟨_, hrest e he⟩) hchild hts
  · intro e hv hdir
    by_cases hes : e = .entry s
    · rw [hes, hempty] at hv
      cases hv
    · rw [hrest e hes] at hv hdir
      have hstart := h.start e hv hdir
      unfold AtStart Store.dirent at hstart ⊢
      rw [hrest e hes, hcursor e hes]
      exact hstart

/-- The cursor of a directory moves. -/
theorem Fresh.seek (h : Fresh v d st) {e : Ent S} {x : Fs.Dirent}
    (hsame : Fs.SameEntry (st.dirent e) x) (hstart : AtStart x) :
    Fresh v d { st with cursor := update st.cursor e (x.curClus, x.clusCnt) } := by
  refine ⟨h.vol, h.sound, h.root, h.fits, ?_⟩
  intro e' hv hdir
  by_cases he : e' = e
  · subst he
    unfold AtStart Store.dirent at *
    dsimp only at *
    rw [update_self]
    rw [hsame] at hstart
    exact hstart
  · have hold := h.start e' hv hdir
    unfold AtStart Store.dirent at hold ⊢
    dsimp only at *
    rw [update_of_ne he]
    exact hold

/-! ### Giving back -/

omit [DecidableEq S] [Fintype S] in
private theorem etruncLoop_noClusters (fuel : Nat) {n : Nat} (h : NoClusters n) :
    Fs.etruncLoop fuel v n = v := by
  cases fuel with
  | zero => rfl
  | succ fuel =>
    rw [Fs.etruncLoop, if_neg]
    unfold NoClusters at h
    omega

omit [Fintype S] in
/-- A removed entry gives up its clusters. -/
theorem Steady.gone {c : Cache S} {e : Ent S} (he : (c.ent e).valid ≠ 1) :
    Steady c { c with
      ent := update c.ent e
        { c.ent e with fileSize := 0, firstClus := 0, dirty := true } } := by
  have hother : ∀ x, x ≠ e → update c.ent e
      { c.ent e with fileSize := 0, firstClus := 0, dirty := true } x = c.ent x :=
    fun x hx ↦ update_of_ne hx _ _
  refine ⟨fun x hx ↦ ?_, fun x ↦ ?_, fun x ↦ ?_, fun x ↦ ?_⟩
  · have hne : x ≠ e := by
      rintro rfl
      exact he hx
    exact ⟨(c.ent x).ref, hother x hne⟩
  · by_cases hxe : x = e
    · rw [hxe]
      dsimp only
      rw [update_self]
    · dsimp only
      rw [hother x hxe]
  · by_cases hxe : x = e
    · rw [hxe]
      dsimp only
      rw [update_self]
    · dsimp only
      rw [hother x hxe]
  · by_cases hxe : x = e
    · right
      rw [hxe]
      dsimp only
      rw [update_self]
    · left
      dsimp only
      rw [hother x hxe]

/-- The last reference of a slot goes: nothing is written. -/
theorem flush_calm (h : Fresh v d st) {s : S} (p : Ent S)
    (hv : (st.cache.ent (.entry s)).valid ≠ 0) :
    Ensures (flush (.entry s) p) st fun _ st' ↦ Calm st st' ∧ Same st.cache st'.cache := by
  unfold flush
  rw [ensures_bind, ensures_get, ensures_ite]
  have hfits := h.fits s hv
  constructor
  · intro hgone
    cases hfits with
    | stands place clean stands =>
      have hone := stands.valid h.root
      rw [hgone] at hone
      cases hone
    | gone valid dir clus =>
      unfold etrunc Fs.etrunc setVol setDirent
      rw [ensures_bind, ensures_get]
      dsimp only
      rw [ensures_bind, ensures_modify, ensures_modify]
      have hkept : Fs.etruncLoop (st.vol.geom.dataClusCnt + 2) st.vol
          (st.dirent (.entry s)).firstClus = st.vol := etruncLoop_noClusters _ clus
      have hcursor : update st.cursor (.entry s)
          ((st.dirent (.entry s)).curClus, (st.dirent (.entry s)).clusCnt) = st.cursor :=
        update_eq_self (Ent.entry s) _
      have hsame := (setEnt_same st.cache (.entry s)
        (f := fun x ↦ { x with fileSize := 0, firstClus := 0, dirty := true })
        (fun _ ↦ ⟨rfl, rfl, rfl, rfl, rfl, rfl⟩) fun _ ↦ rfl).of_ok () _ rfl
      exact ⟨⟨hkept, hcursor, .gone valid⟩, hsame⟩
  · intro _
    rw [ensures_bind]
    apply ensures_lift
    apply (elock_spec _ p).mono
    rintro _ c1 ⟨rfl, -⟩
    rw [ensures_bind]
    unfold eupdate
    rw [ensures_bind, ensures_get, ensures_bind]
    apply ensures_ofVolume
    intro r hr
    have hclean : (st.dirent (.entry s)).dirty = false ∨ (st.dirent (.entry s)).valid ≠ 1 := by
      cases hfits with
      | stands place clean stands => exact .inl clean
      | gone valid dir clus => exact .inr valid
    unfold Fs.eupdate at hr
    dsimp only at hr
    rw [if_pos hclean] at hr
    cases hr
    unfold setVol
    rw [ensures_bind, ensures_modify, ensures_bind]
    apply setDirent_self
    apply setDirent_self
    apply ensures_lift
    apply (eunlock_spec _ p).mono
    rintro _ c2 rfl
    refine ⟨⟨rfl, rfl, .counts fun e ↦ ⟨_, rfl⟩⟩, .refl _⟩

omit [Fintype S] in
/-- A count changes. -/
theorem setEnt_counts (c : Cache S) (e : Ent S) (f : Nat → Nat) :
    Ensures (setEnt e fun x ↦ { x with ref := f x.ref }) c fun _ c' ↦
      ∀ x, ∃ n, c'.ent x = { c.ent x with ref := n } := by
  unfold setEnt
  rw [ensures_modify]
  intro x
  dsimp only
  by_cases hxe : x = e
  · rw [hxe, update_self]
    exact ⟨_, rfl⟩
  · rw [update_of_ne hxe]
    exact ⟨_, rfl⟩

omit [DecidableEq S] [Fintype S] in
/-- A step that only changes counts is calm. -/
theorem Calm.of_cache {c : Cache S} (h : ∀ e, ∃ n, c.ent e = { st.cache.ent e with ref := n }) :
    Calm st { st with cache := c } := ⟨rfl, rfl, .counts h⟩

/-- The recursion of `eput` gives the reference back that the caller held, and writes nothing. -/
theorem eputLoop_fresh (n : Nat) {e : Ent S} (hd : ∀ x, 0 ≤ d x)
    (h : Fresh v (fun x ↦ d x + holds (some e) x) st) :
    Ensures (eputLoop n e) st fun _ st' ↦ Fresh v d st' ∧ Calm st st' ∧
      Ecache.Alike st.cache st'.cache ∧ ∀ x, (st'.cache.ent x).ref ≤ (st.cache.ent x).ref := by
  induction n generalizing st e with
  | zero => exact ensures_halt
  | succ n ih =>
    have hput : ∀ {st1 : Store S}, Fresh v (fun x ↦ d x + holds (some e) x) st1 →
        st1.cache.released e = none →
        (∀ s, e = .entry s → (st1.cache.ent e).ref = 1 → (st1.cache.ent e).valid ≠ 0 →
          ∀ t, t ≠ s → Before st1.cache.order s t) →
        Ensures (lift (setEnt e fun x ↦ { x with ref := x.ref - 1 })) st1 fun _ st' ↦
          Fresh v d st' ∧ Calm st1 st' ∧ Ecache.Alike st1.cache st'.cache ∧
            ∀ x, (st'.cache.ent x).ref ≤ (st1.cache.ent x).ref := by
      intro st1 h1 hreleased hfront
      apply ensures_lift
      apply ((putRef_sound hd h1.sound hfront).and (setEnt_counts _ e (· - 1))).mono
      rintro _ c2 ⟨⟨h2, halike, hle⟩, hcounts⟩
      have hcalm : Calm st1 { st1 with cache := c2 } := .of_cache hcounts
      refine ⟨h1.calm hcalm (h2.congr ?_), hcalm, halike, hle⟩
      intro x
      rw [hreleased, holds_none, add_zero]
    rw [eputLoop, ensures_bind, ensures_get]
    cases e with
    | root => exact hput h rfl (by simp)
    | entry s =>
      dsimp only
      rw [ensures_ite]
      constructor
      · rintro ⟨hv, hone⟩
        obtain ⟨p, hp⟩ := h.sound.shape.parent s hv
        have hpos : 0 < (st.cache.ent (.entry s)).ref := by omega
        have hlink : st.cache.link s = some p := by
          rw [Cache.link, Dirent.link_of_ref hpos hv, hp]
        rw [hp]
        dsimp only
        rw [ensures_bind]
        apply ensures_lift
        rw [ensures_modify]
        -- the list, then the fields that would go to the disk
        set st1 : Store S :=
          { st with cache := { st.cache with order := toFront s st.cache.order } } with hst1
        have hcalm1 : Calm st st1 := .of_cache fun e ↦ ⟨_, rfl⟩
        have h1 : Fresh v (fun x ↦ d x + holds (some (.entry s)) x) st1 :=
          h.calm hcalm1 ⟨h.sound.count, h.sound.shape.front hpos⟩
        apply (flush_calm h1 p hv).bind
        rintro _ st2 ⟨hcalm2, hsame2⟩
        have h2 := h1.calm hcalm2 (h1.sound.same hsame2)
        have hreleased : st2.cache.released (.entry s) = some p := by
          rw [Cache.released, hsame2.ref, if_pos hone, hsame2.link]
          exact hlink
        rw [ensures_bind]
        apply ensures_lift
        refine ((putRef_sound hd h2.sound ?_).and
          (setEnt_counts st2.cache (.entry s) (· - 1))).mono ?_
        · rintro t ⟨⟩ _ _ a ha
          rw [hsame2.order]
          exact before_toFront_self (h.sound.shape.all a) ha
        · rintro _ c3 ⟨⟨h3, halike3, hle3⟩, hcounts⟩
          rw [hreleased] at h3
          have hcalm3 : Calm st2 { st2 with cache := c3 } := .of_cache hcounts
          apply (ih (h2.calm hcalm3 h3)).mono
          rintro _ st4 ⟨h4, hcalm4, halike4, hle4⟩
          have halike1 : Ecache.Alike st.cache st2.cache :=
            ⟨hsame2.valid, hsame2.parent, hsame2.born, hsame2.home, hsame2.name, hsame2.attr⟩
          refine ⟨h4, ((hcalm1.trans hcalm2).trans hcalm3).trans hcalm4,
            (halike1.trans halike3).trans halike4, ?_⟩
          intro x
          have hx4 := hle4 x
          have hx3 := hle3 x
          rw [hsame2.ref] at hx3
          exact hx4.trans hx3
      · intro hnot
        apply hput h
        · rw [Cache.released]
          split_ifs with hone
          · apply Dirent.link_of_valid
            by_contra hv
            exact hnot ⟨hv, hone⟩
          · rfl
        · rintro t ⟨⟩ hone hv
          exact absurd ⟨hv, hone⟩ hnot

/-- `eput` gives the reference back that the caller held. -/
theorem eput_fresh {e : Ent S} (hd : ∀ x, 0 ≤ d x)
    (h : Fresh v (fun x ↦ d x + holds (some e) x) st) :
    Ensures (eput e) st fun _ st' ↦ Fresh v d st' ∧ Calm st st' ∧
      (Settled st.cache → Settled st'.cache) := by
  unfold eput
  rw [ensures_bind, ensures_get]
  apply (eputLoop_fresh _ hd h).mono
  rintro _ st' ⟨h', hcalm, halike, hle⟩
  exact ⟨h', hcalm, fun hs ↦ hs.alike halike hle⟩

omit [Fintype S] in
/-- `eput` of a slot that is not filled. -/
theorem eput_empty {s : S} (hv : (st.cache.ent (.entry s)).valid = 0) :
    Ensures (eput (.entry s)) st fun _ st' ↦ st' = { st with
      cache := { st.cache with
        ent := update st.cache.ent (.entry s)
          { st.cache.ent (.entry s) with ref := (st.cache.ent (.entry s)).ref - 1 } } } := by
  unfold eput
  rw [ensures_bind, ensures_get, eputLoop, ensures_bind, ensures_get]
  dsimp only
  rw [if_neg (by simp [hv])]
  apply ensures_lift
  unfold setEnt
  rw [ensures_modify]

/-! ### Looking up -/

/-- The entry that a lookup returns stands at the place that the walk leads to. -/
def Leads (v : Fs.Volume) (c : Cache S) (r : Option (Ent S))
    (out : Except Fs.Panic (Option Place)) : Prop :=
  match r with
  | none => out = .ok none
  | some e => ∃ place, out = .ok (some place) ∧ Stands v c e place

/-- `edup` of an entry in use, or of the root. -/
theorem edup_fresh (h : Fresh v d st) (hs : Settled st.cache) {e : Ent S}
    (he : e = .root ∨ 0 < (st.cache.ent e).ref) :
    Ensures (lift (edup e)) st fun _ st' ↦ Fresh v (fun x ↦ d x + holds (some e) x) st' ∧
      Settled st'.cache ∧ Calm st st' := by
  apply ensures_lift
  apply ((edup_sound h.sound he).and (setEnt_counts _ e (· + 1))).mono
  rintro _ c1 ⟨⟨h1, halike1, -, hsame1⟩, hcounts⟩
  have hcalm : Calm st { st with cache := c1 } := .of_cache hcounts
  refine ⟨h.calm hcalm h1, ?_, hcalm⟩
  apply hs.dup halike1
  intro t ht
  left
  by_cases hte : Ent.entry t = e
  · rw [hte]
    exact he.resolve_left (by rw [← hte]; simp)
  · rwa [hsame1 _ hte] at ht

omit [Fintype S] in
/-- `eget` of an entry that is cached. -/
theorem eget_hit {c : Cache S} {p : Ent S} {name : List UInt8} {s : S}
    (hhit : c.hit p name = some s) :
    Ensures (eget p name) c fun r c' ↦ r = s ∧ ∀ x, ∃ n, c'.ent x = { c.ent x with ref := n } := by
  unfold eget
  rw [ensures_bind, ensures_get, hhit]
  dsimp only
  apply (setEnt_counts c (.entry s) (· + 1)).bind
  intro _ c1 h1
  rw [ensures_bind, ensures_doIf]
  simp only [ensures_pure]
  refine ⟨fun _ ↦ ?_, fun _ ↦ ⟨trivial, h1⟩⟩
  apply (setEnt_counts c1 p (· + 1)).mono
  intro _ c2 h2
  refine ⟨trivial, fun x ↦ ?_⟩
  obtain ⟨n, hn⟩ := h1 x
  obtain ⟨m, hm⟩ := h2 x
  refine ⟨m, ?_⟩
  rw [hm, hn]

omit [Fintype S] in
/-- `eget` of an entry that is not cached. -/
theorem eget_miss {c : Cache S} {p : Ent S} {name : List UInt8} (hhit : c.hit p name = none) :
    Ensures (eget p name) c fun s c' ↦ c.victim = some s ∧ ∀ x, x ≠ .entry s →
      c'.ent x = c.ent x := by
  unfold eget
  rw [ensures_bind, ensures_get, hhit]
  cases hvictim : c.victim with
  | none => exact ensures_halt
  | some s =>
    unfold setEnt
    dsimp only
    rw [ensures_bind, ensures_modify, ensures_pure]
    exact ⟨rfl, fun x hx ↦ update_of_ne hx _ _⟩

/-- A slot that is not filled gets other fields. -/
theorem sound_unfilled {c : Cache S} (h : Sound d c) {s : S} {x : Ecache.Dirent S}
    (hv : (c.ent (.entry s)).valid = 0) (hpos : 0 < (c.ent (.entry s)).ref) (hx : x.valid = 0)
    (href : x.ref = (c.ent (.entry s)).ref) :
    Sound d { c with ent := update c.ent (.entry s) x } := by
  refine ⟨count_update h.count s x ?_, h.shape.slot (s := s) rfl ?_ ?_ ?_ ?_ ?_⟩
  · intro e
    have hold : c.link s = none := Dirent.link_of_valid hv
    rw [hold, Dirent.link_of_valid hx, href, holds_none]
    omega
  · exact fun e he ↦ update_of_ne he _ _
  · intro t hvt hpt
    exact (h.shape.home t _ hvt hpt).1 hv
  · dsimp only
    rw [update_self, href]
    exact hpos
  · dsimp only
    rw [update_self]
    exact fun hno ↦ absurd hx hno
  · dsimp only
    rw [update_self, hx]
    intro p hno
    cases hno

omit [Fintype S] in
/-- What `fill` does to the entries. -/
theorem fill_entries (c : Cache S) (s : S) (dp : Ent S) (name : List UInt8) (x : Found) :
    Ensures (Ecache.fill s dp name x) c fun _ c' ↦
      (∀ e, e ≠ .entry s → ∃ n, c'.ent e = { c.ent e with ref := n }) ∧
      (c'.ent (.entry s)).filename = name ∧ entryFound (c'.ent (.entry s)) = x ∧
      (c'.ent (.entry s)).firstClus = x.firstClus ∧
      (c'.ent (.entry s)).dirty = false ∧ (c'.ent (.entry s)).valid = 1 ∧
      (c'.ent (.entry s)).parent = some dp := by
  unfold Ecache.fill
  apply (setEnt_counts c dp (· + 1)).bind
  intro _ c1 hcounts
  rw [ensures_modify]
  dsimp only
  rw [update_self]
  refine ⟨fun e he ↦ ?_, rfl, rfl, rfl, rfl, rfl, rfl⟩
  rw [update_of_ne he]
  exact hcounts e

/-- The slot `s` is filled with an entry that the search found. -/
theorem Fresh.fill {c : Cache S} {s : S} {dp : Ent S} {place : Place} (h : Fresh v d st)
    (hv : (st.cache.ent (.entry s)).valid = 0) (hsound : Sound d' c)
    (hrest : ∀ e, e ≠ .entry s → ∃ n, c.ent e = { st.cache.ent e with ref := n })
    (hvalid : (c.ent (.entry s)).valid = 1) (hparent : (c.ent (.entry s)).parent = some dp)
    (hclean : (c.ent (.entry s)).dirty = false) (hplace : Stands v st.cache dp place)
    (hdir : Place.isDir place = true)
    (hfound : coldSearch v (Place.clus v place) (c.ent (.entry s)).filename =
      .ok (some (entryFound (c.ent (.entry s)))))
    (hstart : AtStart (Store.dirent { st with cache := c } (.entry s))) :
    Fresh v d' { st with cache := c } ∧
      Stands v c (.entry s) (entryFound (c.ent (.entry s)) :: place) := by
  have hchild : ∀ t, (st.cache.ent (.entry t)).valid = 1 →
      (st.cache.ent (.entry t)).parent ≠ some (.entry s) :=
    fun t hvt hpt ↦ (h.sound.shape.home t _ hvt hpt).1 hv
  have hdp : dp ≠ .entry s := by
    rintro rfl
    have hone := hplace.valid h.root
    rw [hv] at hone
    cases hone
  have hstands : Stands v c (.entry s) (entryFound (c.ent (.entry s)) :: place) :=
    .entry hvalid hparent (hplace.rest hrest hchild hdp) hdir hfound
  obtain ⟨n, hn⟩ := hrest .root (by simp)
  refine ⟨⟨h.vol, hsound, ⟨?_, ?_, ?_⟩, ?_, ?_⟩, hstands⟩
  · rw [hn]
    exact h.root.valid
  · rw [hn]
    exact h.root.clus
  · rw [hn]
    exact h.root.dir
  · intro t hvt
    dsimp only at hvt
    by_cases hts : t = s
    · subst hts
      exact .stands _ hclean hstands
    · obtain ⟨m, hm⟩ := hrest (.entry t) (by simpa using hts)
      rw [hm] at hvt
      exact (h.fits t hvt).rest hrest hchild hts
  · intro e hve hde
    by_cases hes : e = .entry s
    · rw [hes]
      exact hstart
    · dsimp only at hve hde
      obtain ⟨m, hm⟩ := hrest e hes
      rw [hm] at hve hde
      have hold := h.start e hve hde
      unfold AtStart Store.dirent at hold ⊢
      dsimp only at hold ⊢
      rw [hm]
      exact hold

/-- Behind a miss: the slot is filled with what the contents have under the name. -/
theorem searchMiss_fresh (htidy : Tidy v) {s : S}
    (h : Fresh v (fun x ↦ d x + holds (some (.entry s)) x) st) (hd : ∀ x, 0 ≤ d x)
    (hv : (st.cache.ent (.entry s)).valid = 0) (hr : (st.cache.ent (.entry s)).ref = 1)
    (hs : ∀ t, t ≠ s → 0 < (st.cache.ent (.entry t)).ref → (st.cache.ent (.entry t)).valid ≠ 0)
    {dp : Ent S} {place : Place} (hplace : Stands v st.cache dp place)
    (hdir : (st.cache.ent dp).isDir = true) (hdp : 0 < (st.cache.ent dp).ref) {name : List UInt8}
    (hname : name ≠ []) :
    Ensures (searchMiss dp s name) st fun r st' ↦ Fresh v (fun x ↦ d x + holds r.1 x) st' ∧
      Settled st'.cache ∧ ∃ x, coldSearch v (Place.clus v place) name = .ok x ∧
        Leads v st'.cache r.1 (.ok (x.map (· :: place))) := by
  have hvdp := hplace.valid h.root
  have hattr : (st.dirent dp).attr &&& Fs.attrDirectory ≠ 0 := by
    unfold Ecache.Dirent.isDir at hdir
    exact of_decide_eq_true hdir
  have hplaceDir : Place.isDir place = true := by rw [hplace.isDir h.root, hdir]
  have hclus : Place.clus v place = (st.dirent dp).firstClus := hplace.clus h.root
  have hcursor := h.start dp hvdp hdir
  have htidyDir := htidy place hplace.isPlace hplaceDir
  have htidyDp : TidyDir v (st.dirent dp).firstClus := hclus ▸ htidyDir
  unfold searchMiss
  rw [ensures_bind, ensures_get, ensures_bind]
  apply ensures_ofVolume
  intro r hsearch
  rw [h.vol] at hsearch
  obtain ⟨hstart, hsame⟩ := searchDir_dir hcursor hsearch
  obtain ⟨hepv, hcold⟩ :=
    searchDir_cold htidyDp hname (fun _ ↦ rfl) hv hattr hvdp hcursor hsearch
  rw [← hclus] at hcold
  rw [ensures_bind]
  apply setDirent_seek hsame
  have h1 := h.seek hsame hstart
  set st1 : Store S :=
    { st with cursor := update st.cursor dp (r.dp.curClus, r.dp.clusCnt) } with hst1
  rw [ensures_bind]
  unfold setDirent
  rw [ensures_modify]
  set x : Ecache.Dirent S := { st1.cache.ent (.entry s) with
    filename := r.ep.filename, attr := r.ep.attr, firstClus := r.ep.firstClus,
    fileSize := r.ep.fileSize, dirty := r.ep.dirty, valid := r.ep.valid } with hx
  set st2 : Store S := { st1 with
    cache := { st1.cache with ent := update st1.cache.ent (.entry s) x }
    cursor := update st1.cursor (.entry s) (r.ep.curClus, r.ep.clusCnt) } with hst2
  have hself : st2.cache.ent (.entry s) = x := update_self _ _ _
  have hother : ∀ e, e ≠ .entry s → st2.cache.ent e = st.cache.ent e :=
    fun e he ↦ update_of_ne he _ _
  have hchild : ∀ t, (st.cache.ent (.entry t)).valid = 1 →
      (st.cache.ent (.entry t)).parent ≠ some (.entry s) :=
    fun t hvt hpt ↦ (h.sound.shape.home t _ hvt hpt).1 hv
  have hdps : dp ≠ .entry s := by
    rintro rfl
    rw [hv] at hvdp
    cases hvdp
  have hused : 0 < (st.cache.ent (.entry s)).ref := by omega
  have hv2 : (st2.cache.ent (.entry s)).valid = 0 := by rw [hself, ← hepv]
  have hr2 : (st2.cache.ent (.entry s)).ref = 1 := by rw [hself, ← hr]
  have h2 : Fresh v (fun x ↦ d x + holds (some (.entry s)) x) st2 := by
    refine h1.empty rfl (sound_unfilled h1.sound hv hused hepv rfl) hother ?_ hchild hv2
    exact fun e he ↦ update_of_ne he _ _
  have hs2 : ∀ t, t ≠ s → 0 < (st2.cache.ent (.entry t)).ref →
      (st2.cache.ent (.entry t)).valid ≠ 0 := by
    intro t hts
    rw [hother _ (by simpa using hts)]
    exact hs t hts
  have hplace2 : Stands v st2.cache dp place :=
    hplace.rest (fun e he ↦ ⟨_, hother e he⟩) hchild hdps
  rw [ensures_ite]
  constructor
  · intro hfound
    rw [if_pos hfound] at hcold
    rw [ensures_bind]
    apply ensures_lift
    have hpos : 0 < (st2.cache.ent dp).ref := by
      rw [hother dp hdps]
      exact hdp
    have hvdp2 : (st2.cache.ent dp).valid ≠ 0 := by
      rw [hother dp hdps, hvdp]
      decide
    apply ((fill_sound h2.sound r.ep.filename ⟨r.ep.attr, r.ep.firstClus, r.ep.fileSize, r.off⟩
      hv2 (by omega) hs2 hpos hvdp2).and (fill_entries _ s dp r.ep.filename
        ⟨r.ep.attr, r.ep.firstClus, r.ep.fileSize, r.off⟩)).mono
    rintro _ c3 ⟨⟨h3, hs3, -⟩, hrest3, hname3, hfound3, hclus3, hclean3, hvalid3, hparent3⟩
    rw [ensures_pure]
    have hstart3 : AtStart (Store.dirent { st2 with cache := c3 } (.entry s)) := by
      have hfilled := searchDir_filled htidyDp hname hcursor hsearch hfound
      unfold AtStart Store.dirent at *
      dsimp only
      rw [hclus3, hst2]
      dsimp only
      rw [update_self]
      exact hfilled
    -- the slot's own name compares equal to the one that was looked for
    have hnamed : coldSearch v (Place.clus v place) (c3.ent (.entry s)).filename =
        .ok (some (entryFound (c3.ent (.entry s)))) := by
      rw [hname3, hfound3]
      apply coldSearch_congr htidyDir hname _ hcold
      have heq := searchDir_name hsearch hfound
      unfold sameName at heq ⊢
      rw [decide_eq_true_iff] at heq
      intro y
      rw [heq]
    obtain ⟨hfresh, hstands⟩ := h2.fill hv2 h3 hrest3 hvalid3 hparent3 hclean3 hplace2 hplaceDir
      hnamed hstart3
    refine ⟨hfresh, hs3, _, hcold, _, rfl, ?_⟩
    rw [hfound3] at hstands
    exact hstands
  · intro hmiss
    rw [if_neg hmiss] at hcold
    apply ((eput_fresh hd h2).and (eput_empty hv2)).bind
    rintro _ st3 ⟨⟨h3, -, -⟩, heq3⟩
    rw [ensures_pure]
    refine ⟨h3.calm ⟨rfl, rfl, .counts fun e ↦ ⟨_, rfl⟩⟩ (h3.sound.congr fun x ↦ ?_), ?_,
      none, hcold, rfl⟩
    · rw [holds_none, add_zero]
    · intro t ht
      rw [heq3] at ht ⊢
      dsimp only at ht ⊢
      by_cases hts : t = s
      · subst hts
        rw [update_self, hr2] at ht
        cases ht
      · rw [update_of_ne (by simpa using hts)] at ht ⊢
        exact hs2 t hts ht

/-- `dirlookup` finds what the contents have under the name. -/
theorem dirlookup_fresh (htidy : Tidy v) (h : Fresh v d st) (hd : ∀ x, 0 ≤ d x)
    (hs : Settled st.cache) {dp : Ent S} {place : Place} (hplace : Stands v st.cache dp place)
    (hdp : 0 < (st.cache.ent dp).ref) {name : List UInt8} (hname : name ≠ []) :
    Ensures (dirlookup dp name) st fun r st' ↦ Fresh v (fun x ↦ d x + holds r.1 x) st' ∧
      Settled st'.cache ∧ Leads v st'.cache r.1 (coldStep v name place) := by
  have hedup : ∀ {e : Ent S} {place' : Place}, 0 < (st.cache.ent e).ref →
      Stands v st.cache e place' → coldStep v name place = .ok (some place') →
      Ensures (lift (edup e) >>= fun _ ↦ pure (some e, 0)) st fun r st' ↦
        Fresh v (fun x ↦ d x + holds r.1 x) st' ∧ Settled st'.cache ∧
          Leads v st'.cache r.1 (coldStep v name place) := by
    intro e place' he hstands hstep
    apply (edup_fresh h hs (.inr he)).bind
    rintro _ st1 ⟨h1, hs1, hcalm⟩
    rw [ensures_pure]
    exact ⟨h1, hs1, place', hstep, hstands.steady hcalm.steady⟩
  unfold dirlookup
  rw [ensures_bind, ensures_get]
  simp only [ensures_ite]
  refine ⟨fun _ ↦ ensures_halt, fun hdir ↦ ⟨fun hdot ↦ ?_, fun hdot ↦ ⟨fun hdots ↦ ?_,
    fun hdots ↦ ⟨fun hv ↦ absurd (hplace.valid h.root) hv, fun _ ↦ ?_⟩⟩⟩⟩
  · apply hedup hdp hplace
    rw [coldStep, if_pos hdot]
  · have hstep : coldStep v name place = .ok (some place.tail) := by
      rw [coldStep, if_neg hdot, if_pos hdots]
    cases hplace with
    | root => exact hedup hdp .root hstep
    | entry valid parent up dir found =>
      rw [parent]
      exact hedup (h.sound.parent_pos hd hdp (by rw [valid]; decide) parent) up hstep
  · rw [Bool.not_eq_false] at hdir
    have hstep : ∀ x, coldSearch v (Place.clus v place) name = .ok x →
        coldStep v name place = .ok (x.map (· :: place)) := by
      intro x hx
      rw [coldStep, if_neg hdot, if_neg hdots, hx]
      cases x <;> rfl
    rw [ensures_bind]
    apply ensures_lift
    cases hhit : st.cache.hit dp name with
    | some s =>
      apply ((eget_sound h.sound hd hs name hdp).and (eget_hit hhit)).mono
      rintro _ c1 ⟨⟨h1, -, hgot⟩, rfl, hcounts⟩
      rename_i s
      have hcalm : Calm st { st with cache := c1 } := .of_cache hcounts
      rw [ensures_bind, ensures_get, ensures_ite, ensures_pure]
      cases hgot with
      | miss unused valid ref settled none =>
        have hcaches := List.find?_some hhit
        unfold Cache.caches at hcaches
        rw [decide_eq_true_iff] at hcaches
        rw [hcalm.steady.valid, hcaches.1] at valid
        cases valid
      | hit found valid parent home named settled =>
        refine ⟨fun _ ↦ ⟨h.calm hcalm h1, settled, ?_⟩, fun hnot ↦ absurd valid hnot⟩
        -- the slot stands at a place below that of the directory
        cases (h.calm hcalm h1).fits s (by rw [valid]; decide) with
        | gone valid' => exact absurd valid valid'
        | stands place' clean stands =>
          refine ⟨place', ?_, stands⟩
          cases stands with
          | @entry _ p up' valid' parent' up dir found' =>
            rw [parent] at parent'
            obtain rfl := Option.some.inj parent'
            obtain rfl := (hplace.steady hcalm.steady).unique up
            refine hstep (some _) (coldSearch_congr (htidy _ hplace.isPlace dir) ?_ ?_ found')
            · intro hempty
              rw [hempty] at named
              have hnil := sameName_nil hname
              unfold sameName at named hnil
              rw [decide_eq_true_iff] at named
              rw [decide_eq_false_iff_not] at hnil
              exact hnil named.symm
            · intro y
              unfold sameName at named ⊢
              rw [decide_eq_true_iff] at named
              rw [named]
    | none =>
      apply ((eget_sound h.sound hd hs name hdp).and (eget_miss hhit)).mono
      rintro s c1 ⟨⟨h1, hkept, hgot⟩, hvictim, hrest⟩
      rw [ensures_bind, ensures_get, ensures_ite, ensures_pure]
      cases hgot with
      | hit found =>
        rw [hhit] at found
        cases found
      | miss unused valid ref settled none =>
        refine ⟨fun hone ↦ ?_, fun _ ↦ ?_⟩
        · rw [valid] at hone
          cases hone
        have hchild : ∀ t, (st.cache.ent (.entry t)).valid = 1 →
            (st.cache.ent (.entry t)).parent ≠ some (.entry s) :=
          fun t ht ↦ h.sound.victim_childless hd hvictim ht
        have hdps : dp ≠ .entry s := by
          rintro rfl
          omega
        have h1' : Fresh v (fun x ↦ d x + holds (some (.entry s)) x)
            { st with cache := c1 } :=
          h.empty rfl h1 hrest (fun _ _ ↦ rfl) hchild valid
        have hplace1 : Stands v c1 dp place :=
          hplace.rest (fun e he ↦ ⟨_, hrest e he⟩) hchild hdps
        obtain ⟨hpos1, -, -, -, hattr1⟩ := hkept dp hdp
        have hdir1 : (c1.ent dp).isDir = true := by
          unfold Ecache.Dirent.isDir at hdir ⊢
          rw [hattr1]
          exact hdir
        apply (searchMiss_fresh htidy h1' hd valid ref settled hplace1 hdir1 hpos1 hname).mono
        rintro r st2 ⟨h2, hs2, x, hx, hleads⟩
        rw [hstep x hx]
        exact ⟨h2, hs2, hleads⟩

/-! ### Paths -/

omit [DecidableEq S] [Fintype S] in
/-- No element of a path is empty. -/
theorem ne_nil_of_mem_elements {path name : List UInt8} (h : name ∈ elements path) :
    name ≠ [] := by
  unfold elements at h
  obtain ⟨part, hpart, rfl⟩ := List.mem_map.mp h
  have hne := of_decide_eq_true (List.mem_filter.mp hpart).2
  cases part with
  | nil => exact absurd rfl hne
  | cons b part => exact List.cons_ne_nil b _

/-- A directory in use stands at a place. -/
theorem Fresh.stands_of_dir (h : Fresh v d st) (hs : Settled st.cache) {e : Ent S}
    (he : 0 < (st.cache.ent e).ref) (hdir : (st.cache.ent e).isDir = true) :
    ∃ place, Stands v st.cache e place := by
  cases e with
  | root => exact ⟨[], .root⟩
  | entry s =>
    cases h.fits s (hs s he) with
    | stands place clean stands => exact ⟨place, stands⟩
    | gone valid dir clus =>
      rw [hdir] at dir
      cases dir

/-- The loop of `lookup_path` goes where the walk goes. -/
theorem lookupElems_fresh (htidy : Tidy v) (names : List (List UInt8))
    (hnames : ∀ name ∈ names, name ≠ []) (hd : ∀ x, 0 ≤ d x) {e : Ent S}
    (h : Fresh v (fun x ↦ d x + holds (some e) x) st) (hs : Settled st.cache) :
    Ensures (lookupElems false names e) st fun r st' ↦
      Fresh v (fun x ↦ d x + holds (lookupResult r) x) st' ∧ Settled st'.cache ∧
        ∀ place, Stands v st.cache e place →
          Leads v st'.cache (lookupResult r) (coldWalk v names place) := by
  have hgone : ∀ {st1 : Store S} {e : Ent S}, Fresh v (fun x ↦ d x + holds (some e) x) st1 →
      Settled st1.cache →
      Ensures (lift (eunlock e) >>= fun _ ↦ eput e >>= fun _ ↦ pure none) st1 fun r st' ↦
        Fresh v (fun x ↦ d x + holds (lookupResult r) x) st' ∧ Settled st'.cache ∧ r = none := by
    intro st1 e h1 hs1
    rw [ensures_bind]
    apply ensures_lift
    apply (eunlock_spec st1.cache e).mono
    rintro _ _ rfl
    apply (eput_fresh hd h1).bind
    rintro _ st2 ⟨h2, -, hs2⟩
    rw [ensures_pure]
    refine ⟨h2.calm ⟨rfl, rfl, .counts fun _ ↦ ⟨_, rfl⟩⟩ (h2.sound.congr fun x ↦ ?_), hs2 hs1, rfl⟩
    change d x + holds none x = d x
    rw [holds_none, add_zero]
  induction names generalizing st e with
  | nil =>
    rw [lookupElems, if_neg Bool.false_ne_true, ensures_pure]
    exact ⟨h, hs, fun place hplace ↦ ⟨place, rfl, hplace⟩⟩
  | cons name rest ih =>
    have hname := hnames name List.mem_cons_self
    rw [lookupElems, ensures_bind]
    apply ensures_lift
    apply (elock_spec st.cache e).mono
    rintro _ c1 ⟨rfl, hpos⟩
    rw [ensures_bind, ensures_get]
    simp only [ensures_ite]
    refine ⟨fun hdir ↦ ?_, fun hdir ↦ ⟨fun hno ↦ absurd hno.1 Bool.false_ne_true, fun _ ↦ ?_⟩⟩
    · apply (hgone h hs).mono
      rintro r st2 ⟨h2, hs2, rfl⟩
      refine ⟨h2, hs2, fun place hplace ↦ ?_⟩
      change coldWalk v (name :: rest) place = .ok none
      rw [coldWalk, if_pos]
      rw [hplace.isDir h.root, hdir]
    · rw [Bool.not_eq_false] at hdir
      obtain ⟨place, hplace⟩ := h.stands_of_dir hs hpos hdir
      have hplaceDir : Place.isDir place = true := by rw [hplace.isDir h.root, hdir]
      have hunique : ∀ {r : Option (Ent S)} {c : Cache S},
        Leads v c r (coldWalk v (name :: rest) place) →
          ∀ place', Stands v st.cache e place' →
            Leads v c r (coldWalk v (name :: rest) place') := by
        intro r c hleads place' hplace'
        rw [hplace.unique hplace']
        exact hleads
      apply (dirlookup_fresh htidy h (Sound.nonneg_add hd) hs hplace hpos hname).bind
      rintro ⟨r, off⟩ st2 ⟨h2, hs2, hleads⟩
      cases r with
      | none =>
        have hnone : coldStep v name place = .ok none := hleads
        have h2' : Fresh v (fun x ↦ d x + holds (some e) x) st2 :=
          h2.calm ⟨rfl, rfl, .counts fun _ ↦ ⟨_, rfl⟩⟩
            (h2.sound.congr fun x ↦ by rw [holds_none, add_zero])
        apply (hgone h2' hs2).mono
        rintro r st3 ⟨h3, hs3, rfl⟩
        refine ⟨h3, hs3, hunique ?_⟩
        change coldWalk v (name :: rest) place = .ok none
        rw [coldWalk, hplaceDir, hnone]
        rfl
      | some next =>
        obtain ⟨place', hstep, hstands⟩ := hleads
        dsimp only
        rw [ensures_bind]
        apply ensures_lift
        apply (eunlock_spec st2.cache e).mono
        rintro _ _ rfl
        rw [ensures_bind]
        have h2' : Fresh v (fun x ↦ (d x + holds (some next) x) + holds (some e) x) st2 :=
          h2.calm ⟨rfl, rfl, .counts fun _ ↦ ⟨_, rfl⟩⟩
            (h2.sound.congr fun x ↦ by dsimp only; omega)
        apply (eput_fresh (Sound.nonneg_add hd) h2').mono
        rintro _ st3 ⟨h3, hcalm3, hs3⟩
        apply (ih (fun name hmem ↦ hnames name (List.mem_cons_of_mem _ hmem)) h3 (hs3 hs2)).mono
        rintro r st4 ⟨h4, hs4, hleads4⟩
        refine ⟨h4, hs4, hunique ?_⟩
        rw [coldWalk, hplaceDir, hstep]
        exact hleads4 place' (hstands.steady hcalm3.steady)

/-- Where a path starts, for a process in a directory at a place. -/
def startPlace (path : List UInt8) (place : Place) : Place :=
  if path.head? = some 0x2f then [] else place

/-- `ename` without a cache. -/
def coldName (v : Fs.Volume) (place : Place) (path : List UInt8) :
    Except Fs.Panic (Option Place) :=
  if path = [] then .ok none else coldWalk v (elements path) (startPlace path place)

/-- `ename` returns the entry at the place that the path leads to. -/
theorem ename_fresh (htidy : Tidy v) (h : Fresh v d st) (hd : ∀ x, 0 ≤ d x)
    (hs : Settled st.cache) {cwd : Ent S} (path : List UInt8)
    (hcwd : cwd = .root ∨ 0 < (st.cache.ent cwd).ref) :
    Ensures (ename cwd path) st fun r st' ↦ Fresh v (fun x ↦ d x + holds r x) st' ∧
      Settled st'.cache ∧ ∀ place, Stands v st.cache cwd place →
        Leads v st'.cache r (coldName v place path) := by
  have hnames : ∀ name ∈ elements path, name ≠ [] := fun _ ↦ ne_nil_of_mem_elements
  unfold ename lookupPath
  rw [ensures_bind]
  cases path with
  | nil =>
    rw [ensures_pure]
    dsimp only
    rw [ensures_pure]
    exact ⟨h.calm ⟨rfl, rfl, .counts fun _ ↦ ⟨_, rfl⟩⟩
      (h.sound.congr fun x ↦ by rw [holds_none, add_zero]), hs, fun _ _ ↦ rfl⟩
  | cons b path =>
    have hstart : ∀ {e : Ent S}, e = .root ∨ 0 < (st.cache.ent e).ref →
        Ensures (lift (edup e) >>= fun _ ↦ lookupElems false (elements (b :: path)) e) st
          fun r st' ↦ Fresh v (fun x ↦ d x + holds (lookupResult r) x) st' ∧ Settled st'.cache ∧
            ∀ place, Stands v st.cache e place →
              Leads v st'.cache (lookupResult r) (coldWalk v (elements (b :: path)) place) := by
      intro e he
      apply (edup_fresh h hs he).bind
      rintro _ st1 ⟨h1, hs1, hcalm1⟩
      apply (lookupElems_fresh htidy _ hnames hd h1 hs1).mono
      rintro r st2 ⟨h2, hs2, hleads⟩
      exact ⟨h2, hs2, fun place hplace ↦ hleads place (hplace.steady hcalm1.steady)⟩
    dsimp only
    by_cases hb : b = 0x2f
    · rw [if_pos hb]
      apply (hstart (.inl rfl)).mono
      rintro r st2 ⟨h2, hs2, hleads⟩
      have hcold : ∀ place,
        coldName v place (b :: path) = coldWalk v (elements (b :: path)) [] := by
        intro place
        rw [coldName, if_neg (List.cons_ne_nil b path), startPlace, List.head?_cons, hb, if_pos rfl]
      have hleads' : ∀ place, Leads v st2.cache (lookupResult r) (coldName v place (b :: path)) :=
        fun place ↦ (hcold place).symm ▸ hleads [] .root
      cases r with
      | none => exact ensures_pure.mpr ⟨h2, hs2, fun place _ ↦ hleads' place⟩
      | some r => exact ensures_pure.mpr ⟨h2, hs2, fun place _ ↦ hleads' place⟩
    · rw [if_neg hb]
      apply (hstart hcwd).mono
      rintro r st2 ⟨h2, hs2, hleads⟩
      have hcold : ∀ place, coldName v place (b :: path) =
          coldWalk v (elements (b :: path)) place := by
        intro place
        rw [coldName, if_neg (List.cons_ne_nil b path), startPlace, List.head?_cons,
          if_neg (by simpa using hb)]
      have hleads' : ∀ place, Stands v st.cache cwd place →
          Leads v st2.cache (lookupResult r) (coldName v place (b :: path)) :=
        fun place hplace ↦ (hcold place).symm ▸ hleads place hplace
      cases r with
      | none => exact ensures_pure.mpr ⟨h2, hs2, hleads'⟩
      | some r => exact ensures_pure.mpr ⟨h2, hs2, hleads'⟩

end Xv6K210.Mount
