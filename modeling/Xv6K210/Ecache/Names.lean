import Xv6K210.Ecache.Lookup

/-!
# Names of cached entries

No two slots cache one entry of a directory, and the way from an entry that is
held up to the root spells a path. What a lookup returns lies on such a way.
-/

namespace Xv6K210.Ecache

open Xv6K210.Base Xv6K210.Fs Prog Function

variable {S : Type}

/-- An element of a path, as `skipelem` cuts it. -/
structure IsElem (name : List UInt8) : Prop where
  ne_nil : name ≠ []
  slash : 0x2f ∉ name
  length : name.length ≤ fat32MaxFilename

/-- An element of a path that names an entry of its directory. -/
structure IsName (name : List UInt8) : Prop extends IsElem name where
  dot : name ≠ [dotCh]
  dots : name ≠ [dotCh, dotCh]

/-- The way up from an entry, with the names on it from the root on. -/
inductive Located (c : Cache S) : Ent S → List (List UInt8) → Prop
  | root : Located c .root []
  | entry {s : S} {p : Ent S} {names : List (List UInt8)}
      (parent : (c.ent (.entry s)).parent = some p) (name : IsName (c.ent (.entry s)).filename)
      (above : Located c p names) : Located c (.entry s) (names ++ [(c.ent (.entry s)).filename])

/-- No two slots cache one entry, and directories only have children. -/
structure Distinct (c : Cache S) : Prop where
  root : (c.ent .root).valid = 1
  rootDir : (c.ent .root).isDir = true
  top : (c.ent .root).parent = none
  length : ∀ s, (c.ent (.entry s)).valid ≠ 0 →
    (c.ent (.entry s)).filename.length ≤ fat32MaxFilename
  dir : ∀ s p, (c.ent (.entry s)).valid = 1 → (c.ent (.entry s)).parent = some p →
    (c.ent p).isDir = true
  unique : ∀ s t p, (c.ent (.entry s)).valid = 1 → (c.ent (.entry t)).valid = 1 →
    (c.ent (.entry s)).parent = some p → (c.ent (.entry t)).parent = some p →
    sameName (c.ent (.entry s)).filename (c.ent (.entry t)).filename = true → s = t

/-- A routine leaves the cache distinct, and the entries that callers hold where they are. -/
structure Spelled (d : Ent S → Int) (c c' : Cache S) : Prop where
  distinct : Distinct c'
  located : ∀ e names, 0 < d e → Located c e names → Located c' e names

/-- Every name is kept. -/
theorem Spelled.refl {d : Ent S → Int} {c : Cache S} (h : Distinct c) : Spelled d c c :=
  ⟨h, fun _ _ _ he ↦ he⟩

/-- Names that are kept twice are kept. -/
theorem Spelled.trans {d : Ent S → Int} {c c' c'' : Cache S} (h : Spelled d c c')
    (h' : Spelled d c' c'') : Spelled d c c'' :=
  ⟨h'.distinct, fun e names hd he ↦ h'.located e names hd (h.located e names hd he)⟩

/-- Fewer entries are asked for. -/
theorem Spelled.mono {d d' : Ent S → Int} {c c' : Cache S} (h : Spelled d' c c')
    (hd : ∀ e, 0 < d e → 0 < d' e) : Spelled d c c' :=
  ⟨h.distinct, fun e names he ↦ h.located e names (hd e he)⟩

/-! ### Changes that keep the names -/

/-- The way depends on parents and names only. -/
theorem Located.congr {c c' : Cache S} {e : Ent S} {names : List (List UInt8)}
    (h : Located c e names)
    (hsame : ∀ s, (c'.ent (.entry s)).parent = (c.ent (.entry s)).parent ∧
      (c'.ent (.entry s)).filename = (c.ent (.entry s)).filename) : Located c' e names := by
  induction h with
  | root => exact .root
  | @entry s p names hp hname _ ih =>
    obtain ⟨hparent, hfile⟩ := hsame s
    rw [← hfile] at hname ⊢
    exact .entry (hparent.trans hp) hname ih

/-- The way is the same when the entries stay alike. -/
theorem Located.alike {c c' : Cache S} {e : Ent S} {names : List (List UInt8)}
    (h : Located c e names) (h' : Alike c c') : Located c' e names :=
  h.congr fun _ ↦ ⟨h'.parent _, h'.name _⟩

/-- Slots that no longer cache what they cached. -/
theorem Distinct.fade {c c' : Cache S} (h : Distinct c) (hroot : c'.ent .root = c.ent .root)
    (hvalid : ∀ s, (c'.ent (.entry s)).valid ≠ 0 → (c.ent (.entry s)).valid ≠ 0)
    (hone : ∀ s, (c'.ent (.entry s)).valid = 1 → (c.ent (.entry s)).valid = 1)
    (hsame : ∀ s, (c'.ent (.entry s)).parent = (c.ent (.entry s)).parent ∧
      (c'.ent (.entry s)).filename = (c.ent (.entry s)).filename ∧
      (c'.ent (.entry s)).attr = (c.ent (.entry s)).attr) : Distinct c' := by
  refine ⟨by rw [hroot, h.root], by rw [hroot, h.rootDir], by rw [hroot, h.top], ?_, ?_, ?_⟩
  · intro s hv
    rw [(hsame s).2.1]
    exact h.length s (hvalid s hv)
  · intro s p hv hp
    rw [(hsame s).1] at hp
    have hdir := h.dir s p (hone s hv) hp
    cases p with
    | root => rw [hroot, hdir]
    | entry t =>
      unfold Dirent.isDir at hdir ⊢
      rw [(hsame t).2.2, hdir]
  · intro s t p hs ht hps hpt hname
    rw [(hsame s).1] at hps
    rw [(hsame t).1] at hpt
    rw [(hsame s).2.1, (hsame t).2.1] at hname
    exact h.unique s t p (hone s hs) (hone t ht) hps hpt hname

/-- The names stay distinct. -/
theorem Distinct.alike {c c' : Cache S} (h : Distinct c) (h' : Alike c c') : Distinct c' := by
  have hdir : ∀ e, (c'.ent e).isDir = (c.ent e).isDir := by
    intro e
    unfold Dirent.isDir
    rw [h'.attr]
  constructor
  · rw [h'.valid, h.root]
  · rw [hdir, h.rootDir]
  · rw [h'.parent, h.top]
  · intro s
    rw [h'.valid, h'.name]
    exact h.length s
  · intro s p
    rw [h'.valid, h'.parent, hdir]
    exact h.dir s p
  · intro s t p
    rw [h'.valid, h'.valid, h'.parent, h'.parent, h'.name, h'.name]
    exact h.unique s t p

/-- Entries that stay alike keep their names. -/
theorem Alike.spelled {d : Ent S → Int} {c c' : Cache S} (h : Alike c c') (hc : Distinct c) :
    Spelled d c c' :=
  ⟨hc.alike h, fun _ _ _ he ↦ he.alike h⟩

/-- Names of a legal length that compare equal are equal. -/
theorem eq_of_sameName {a b : List UInt8} (ha : a.length ≤ fat32MaxFilename)
    (hb : b.length ≤ fat32MaxFilename) (h : sameName a b = true) : a = b := by
  unfold sameName at h
  rw [decide_eq_true_iff, List.take_of_length_le ha, List.take_of_length_le hb] at h
  exact h

private theorem sameName_comm (a b : List UInt8) : sameName a b = sameName b a := by
  unfold sameName
  simp only [eq_comm]

variable [DecidableEq S]

/-- `edup` changes counts only. -/
theorem edup_alike (c : Cache S) (e : Ent S) : Ensures (edup e) c fun _ c' ↦ Alike c c' := by
  unfold edup setEnt
  rw [ensures_modify]
  exact alike_update c e (f := fun x ↦ { x with ref := x.ref + 1 })
    fun _ ↦ ⟨rfl, rfl, rfl, rfl, rfl, rfl⟩

private theorem Cache.hit_take (c : Cache S) (p : Ent S) (name : List UInt8) :
    c.hit p (name.take fat32MaxFilename) = c.hit p name := by
  unfold Cache.hit Cache.caches sameName
  simp only [List.take_take, min_self]

/-- Neither is a routine that keeps the names of a slot, and fills none. -/
theorem setEnt_names {c : Cache S} (hc : Distinct c) (s : S) {f : Dirent S → Dirent S}
    (hf : ∀ x, (f x).parent = x.parent ∧ (f x).filename = x.filename ∧ (f x).attr = x.attr)
    (hvalid : ∀ x, (f x).valid ≠ 0 → x.valid ≠ 0) (hone : ∀ x, (f x).valid = 1 → x.valid = 1) :
    Ensures (setEnt (.entry s) f) c fun _ c' ↦ Distinct c' ∧
      (∀ e, (c'.ent e).attr = (c.ent e).attr) ∧
        ∀ e names, Located c e names → Located c' e names := by
  unfold setEnt
  rw [ensures_modify]
  have hcases : ∀ (r : Dirent S → Dirent S → Prop), (∀ x, r x x) → (∀ x, r x (f x)) →
      ∀ e, r (c.ent e) (update c.ent (.entry s) (f (c.ent (.entry s))) e) := by
    intro r hrefl hstep e
    by_cases he : e = .entry s
    · rw [he, update_self]
      exact hstep _
    · rw [update_of_ne he]
      exact hrefl _
  have hsame := hcases (fun x y ↦ y.parent = x.parent ∧ y.filename = x.filename ∧
    y.attr = x.attr) (fun _ ↦ ⟨rfl, rfl, rfl⟩) hf
  have hroot : update c.ent (.entry s) (f (c.ent (.entry s))) .root = c.ent .root :=
    update_of_ne (by simp) _ _
  refine ⟨hc.fade hroot ?_ ?_ fun t ↦ hsame _,
    fun e ↦ (hsame e).2.2, ?_⟩
  · intro t
    exact hcases (fun x y ↦ y.valid ≠ 0 → x.valid ≠ 0) (fun _ ↦ id) hvalid (.entry t)
  · intro t
    exact hcases (fun x y ↦ y.valid = 1 → x.valid = 1) (fun _ ↦ id) hone (.entry t)
  · intro e names he
    exact he.congr fun t ↦ ⟨(hsame _).1, (hsame _).2.1⟩

/-- `eget` recycles a slot or counts a reference. -/
theorem eget_names {c : Cache S} (hc : Distinct c) (p : Ent S) (name : List UInt8) :
    Ensures (eget p name) c fun _ c' ↦ Distinct c' ∧ (∀ e, (c'.ent e).attr = (c.ent e).attr) ∧
      ∀ e names, Located c e names → Located c' e names := by
  unfold eget
  rw [ensures_bind, ensures_get]
  cases c.hit p name with
  | some s =>
    simp only [ensures_bind, ensures_doIf, ensures_pure]
    apply (edup_alike c (.entry s)).mono
    intro _ c1 h1
    refine ⟨fun _ ↦ ?_, fun _ ↦ ⟨hc.alike h1, h1.attr, fun e names he ↦ he.alike h1⟩⟩
    apply (edup_alike c1 p).mono
    intro _ c2 h2
    have h := h1.trans h2
    exact ⟨hc.alike h, h.attr, fun e names he ↦ he.alike h⟩
  | none =>
    cases c.victim with
    | none => exact ensures_halt
    | some s =>
      simp only [ensures_bind, ensures_pure]
      apply setEnt_names hc s
      · exact fun _ ↦ ⟨rfl, rfl, rfl⟩
      · intro x hv
        exact absurd rfl hv
      · intro x hv
        cases hv

variable [Fintype S] {d : Ent S → Int}

omit [DecidableEq S] [Fintype S] in
/-- The way up from an entry in use does not pass a slot that is empty and nobody's parent. -/
theorem Located.of_rest [Fintype S] [DecidableEq S] {c c' : Cache S} {e : Ent S}
    {names : List (List UInt8)} (h : Located c e names) (hsound : Sound d c) (hd : ∀ x, 0 ≤ d x)
    {s : S} (hs : ∀ t, t ≠ s → 0 < (c.ent (.entry t)).ref → (c.ent (.entry t)).valid ≠ 0)
    (hlink : ∀ t, c.link t ≠ some (.entry s)) (he : 0 < (c.ent e).ref) (hes : e ≠ .entry s)
    (hrest : ∀ x, x ≠ .entry s → (c'.ent x).parent = (c.ent x).parent ∧
      (c'.ent x).filename = (c.ent x).filename) : Located c' e names := by
  induction h with
  | root => exact .root
  | @entry t p names hp hname _ ih =>
    have hts : t ≠ s := fun hts ↦ hes (by rw [hts])
    have hv := hs t hts he
    have hpt : c.link t = some p := by rw [Cache.link, Dirent.link_of_ref he hv, hp]
    have hps : p ≠ .entry s := by
      rintro rfl
      exact hlink t hpt
    obtain ⟨hparent, hfile⟩ := hrest (.entry t) hes
    rw [← hfile] at hname ⊢
    exact .entry (hparent.trans hp) hname (ih (hsound.parent_pos hd he hv hp) hps)

/-- An empty slot is filled with an entry that no slot caches. -/
theorem fill_names {c : Cache S} {s : S} {dp : Ent S}
    (h : Sound (fun x ↦ d x + holds (some (.entry s)) x) c) (hd : ∀ x, 0 ≤ d x)
    (hc : Distinct c) (name : List UInt8) (x : Found) (hv : (c.ent (.entry s)).valid = 0)
    (hr : (c.ent (.entry s)).ref = 1)
    (hs : ∀ t, t ≠ s → 0 < (c.ent (.entry t)).ref → (c.ent (.entry t)).valid ≠ 0)
    (hdp : 0 < (c.ent dp).ref) (hdpv : (c.ent dp).valid ≠ 0) (hdir : (c.ent dp).isDir = true)
    (hlen : name.length ≤ fat32MaxFilename) (hhit : c.hit dp name = none) :
    Ensures (fill s dp name x) c fun _ c' ↦ Spelled d c c' ∧
      ∀ names, IsName name → Located c dp names → Located c' (.entry s) (names ++ [name]) := by
  have hne : dp ≠ .entry s := by
    rintro rfl
    exact hdpv hv
  have hcount := h.count (.entry s)
  rw [hr, holds_self] at hcount
  have hds := hd (.entry s)
  have hlink : ∀ t, c.link t ≠ some (.entry s) := by
    intro t ht
    have := refs_pos.mpr ⟨t, ht⟩
    omega
  have hchild : ∀ t, (c.ent (.entry t)).valid = 1 → (c.ent (.entry t)).parent ≠ some (.entry s) :=
    fun t hvt hpt ↦ (h.shape.home t _ hvt hpt).1 hv
  unfold fill
  apply (edup_alike c dp).bind
  intro _ c1 h1
  rw [ensures_modify]
  set y : Dirent S := { c1.ent (.entry s) with
    filename := name, attr := x.attr, firstClus := x.firstClus, fileSize := x.fileSize,
    off := x.off, dirty := false, valid := 1, parent := some dp, born := c1.fills,
    home := (c1.ent dp).born } with hy
  have hself : update c1.ent (.entry s) y (.entry s) = y := update_self _ _ _
  have hrest : ∀ e, e ≠ .entry s → update c1.ent (.entry s) y e = c1.ent e :=
    fun e he ↦ update_of_ne he _ _
  have hc1 := hc.alike h1
  have hkeeps : ∀ e names, 0 < (c.ent e).ref → e ≠ .entry s → Located c e names →
      Located { c1 with ent := update c1.ent (.entry s) y, fills := c1.fills + 1 }
        e names := by
    intro e names he hes hat
    apply hat.of_rest h (Sound.nonneg_add hd) hs hlink he hes
    intro z hz
    dsimp only
    rw [hrest z hz]
    exact ⟨h1.parent z, h1.name z⟩
  -- the new entry has no equal
  have hnew : ∀ t, t ≠ s → (c1.ent (.entry t)).valid = 1 →
      (c1.ent (.entry t)).parent = some dp →
        sameName (c1.ent (.entry t)).filename name = false := by
    intro t _ hvt hpt
    unfold Cache.hit at hhit
    have hnot := List.find?_eq_none.mp hhit t (h.shape.all t)
    unfold Cache.caches at hnot
    rw [decide_eq_true_iff, ← h1.valid, ← h1.parent, ← h1.name] at hnot
    exact Bool.eq_false_iff.mpr fun hname ↦ hnot ⟨hvt, hpt, hname⟩
  refine ⟨⟨⟨?_, ?_, ?_, ?_, ?_, ?_⟩, ?_⟩, ?_⟩
  · dsimp only
    rw [hrest _ (by simp), hc1.root]
  · dsimp only
    rw [hrest _ (by simp), hc1.rootDir]
  · dsimp only
    rw [hrest _ (by simp), hc1.top]
  · intro t hvt
    dsimp only at hvt ⊢
    by_cases hts : t = s
    · rw [hts, hself]
      exact hlen
    · rw [hrest _ (by simpa using hts)] at hvt ⊢
      exact hc1.length t hvt
  · intro t p hvt hpt
    dsimp only at hvt hpt ⊢
    by_cases hts : t = s
    · rw [hts, hself] at hpt
      obtain rfl := Option.some.inj hpt
      rw [hrest _ hne]
      unfold Dirent.isDir at hdir ⊢
      rw [h1.attr, hdir]
    · rw [hrest _ (by simpa using hts)] at hvt hpt
      have hps : p ≠ .entry s := by
        rintro rfl
        rw [h1.valid] at hvt
        rw [h1.parent] at hpt
        exact hchild t hvt hpt
      rw [hrest _ hps]
      exact hc1.dir t p hvt hpt
  · intro t u p hvt hvu hpt hpu hname
    dsimp only at hvt hvu hpt hpu hname
    by_cases hts : t = s
    · by_cases hus : u = s
      · rw [hts, hus]
      · rw [hts, hself] at hpt hname
        rw [hrest _ (by simpa using hus)] at hvu hpu hname
        obtain rfl := Option.some.inj hpt
        have := hnew u hus hvu hpu
        rw [sameName_comm, hname] at this
        cases this
    · by_cases hus : u = s
      · rw [hus, hself] at hpu hname
        rw [hrest _ (by simpa using hts)] at hvt hpt hname
        obtain rfl := Option.some.inj hpu
        have := hnew t hts hvt hpt
        rw [hname] at this
        cases this
      · rw [hrest _ (by simpa using hts)] at hvt hpt hname
        rw [hrest _ (by simpa using hus)] at hvu hpu hname
        exact hc1.unique t u p hvt hvu hpt hpu hname
  · intro e names he hat
    apply hkeeps e names _ _ hat
    · apply h.ref_pos
      have := holds_nonneg (some (.entry s)) e
      omega
    · rintro rfl
      omega
  · intro names hname hat
    have hup := hkeeps dp names hdp hne hat
    have hend : Located { c1 with ent := update c1.ent (.entry s) y, fills := c1.fills + 1 }
        (.entry s) (names ++ [(update c1.ent (.entry s) y (.entry s)).filename]) := by
      apply Located.entry _ _ hup
      · dsimp only
        rw [hself]
      · dsimp only
        rw [hself]
        exact hname
    rw [hself] at hend
    exact hend

/-! ### Lookups -/

/-- What `dirlookup` finds from an entry on a way from the root is on such a way. -/
theorem dirlookup_names {c : Cache S} (h : Sound d c) (hd : ∀ x, 0 ≤ d x) (hs : Settled c)
    (hc : Distinct c) {dp : Ent S} {name : List UInt8} (hlen : name.length ≤ fat32MaxFilename)
    (hdp : 0 < (c.ent dp).ref) :
    Ensures (dirlookup dp name) c fun r c' ↦ Spelled d c c' ∧
      (IsElem name → (∃ names, Located c dp names) →
        ∀ e, r = some e → ∃ names, Located c' e names) := by
  have hedup : ∀ e, ((∃ names, Located c dp names) → ∃ names, Located c e names) →
      Ensures (edup e >>= fun _ ↦ pure (some e)) c fun r c' ↦ Spelled d c c' ∧
        (IsElem name → (∃ names, Located c dp names) →
          ∀ e, r = some e → ∃ names, Located c' e names) := by
    intro e he
    simp only [ensures_bind, ensures_pure]
    apply (edup_alike c e).mono
    intro _ c1 h1
    refine ⟨h1.spelled hc, ?_⟩
    rintro - hat e' ⟨⟩
    obtain ⟨names, hnames⟩ := he hat
    exact ⟨names, hnames.alike h1⟩
  unfold dirlookup
  rw [ensures_bind, ensures_get]
  simp only [ensures_ite]
  refine ⟨fun _ ↦ ensures_halt, fun hdir ↦ ⟨fun _ ↦ hedup dp id, fun hdot ↦ ⟨fun _ ↦ ?_,
    fun hdots ↦ ⟨fun _ ↦ ?_, fun hv ↦ ?_⟩⟩⟩⟩
  · cases dp with
    | root => exact hedup .root id
    | entry s =>
      cases hp : (c.ent (.entry s)).parent with
      | none => exact ensures_pure.mpr ⟨.refl hc, by simp⟩
      | some p =>
        apply hedup p
        rintro ⟨_, hat⟩
        cases hat with
        | entry hp' _ habove =>
          obtain rfl := Option.some.inj (hp.symm.trans hp')
          exact ⟨_, habove⟩
  · exact ensures_pure.mpr ⟨.refl hc, by simp⟩
  rw [not_not] at hv
  have hname : IsElem name → IsName name := by
    intro helem
    refine ⟨helem, ?_, ?_⟩
    · rintro rfl
      exact hdot (by decide)
    · rintro rfl
      exact hdots (by decide)
  apply ((eget_sound h hd hs name hdp).and (eget_names hc dp name)).bind
  rintro s c1 ⟨⟨h1, hkept1, hgot1⟩, hc1, hattr1, hat1⟩
  have hspelled1 : Spelled d c c1 := ⟨hc1, fun e names _ ↦ hat1 e names⟩
  rw [ensures_bind, ensures_get, ensures_ite, ensures_pure]
  cases hgot1 with
  | hit _ hvalid hparent _ hnamed _ =>
    refine ⟨fun _ ↦ ⟨hspelled1, ?_⟩, fun hnot ↦ absurd hvalid hnot⟩
    rintro helem ⟨names, hat⟩ e ⟨⟩
    have hfile : (c1.ent (.entry s)).filename = name := by
      apply eq_of_sameName _ hlen hnamed
      exact hc1.length s (by rw [hvalid]; decide)
    exact ⟨_, .entry hparent (by rw [hfile]; exact hname helem) (hat1 _ _ hat)⟩
  | miss hunused hvalid href hsettled hhit =>
    refine ⟨fun hone ↦ ?_, fun _ ↦ ?_⟩
    · rw [hvalid] at hone
      cases hone
    apply (search_same c1).bind
    intro r c2 h2
    have hspelled2 : Spelled d c c2 := hspelled1.trans (h2.toAlike.spelled hc1)
    obtain ⟨hrdp, hvdp, -⟩ := (hkept1.trans h2.kept) dp hdp
    cases r with
    | some x =>
      simp only [ensures_bind, ensures_pure]
      refine (fill_names (h1.same h2) hd hspelled2.distinct name x ?_ ?_ ?_ hrdp ?_ ?_ hlen
        ?_).mono ?_
      · rw [h2.valid, hvalid]
      · rw [h2.ref, href]
      · intro t ht
        rw [h2.ref, h2.valid]
        exact hsettled t ht
      · rw [hvdp, hv]
        decide
      · unfold Dirent.isDir at hdir ⊢
        rw [h2.attr, hattr1]
        simpa using hdir
      · rw [h2.hit, hhit]
      · rintro _ c3 ⟨h3, hnew⟩
        refine ⟨hspelled2.trans h3, ?_⟩
        rintro helem ⟨names, hat⟩ e ⟨⟩
        exact ⟨_, hnew names (hname helem) ((hat1 _ _ hat).alike h2.toAlike)⟩
    | none =>
      simp only [ensures_bind, ensures_pure]
      apply (eput_sound hd (h1.same h2)).mono
      rintro _ c3 ⟨-, -, halike3⟩
      exact ⟨hspelled2.trans (halike3.spelled hspelled2.distinct), by simp⟩

omit [DecidableEq S] [Fintype S] in
private theorem formatname_length {name name' : List UInt8} (h : formatname name = some name') :
    name'.length ≤ name.length := by
  unfold formatname at h
  dsimp only at h
  split_ifs at h
  obtain rfl := Option.some.inj h
  exact ((List.rdropWhile_prefix _ _).length_le).trans (List.dropWhile_suffix _).length_le

/-- `ealloc` makes an entry only where there is none of that name. -/
theorem ealloc_names {c : Cache S} (h : Sound d c) (hd : ∀ x, 0 ≤ d x) (hs : Settled c)
    (hc : Distinct c) {dp : Ent S} {name : List UInt8} (hlen : name.length ≤ fat32MaxFilename)
    (attr : UInt8) (off : Nat) (hdp : 0 < (c.ent dp).ref) :
    Ensures (ealloc dp name attr off) c fun _ c' ↦ Spelled d c c' := by
  unfold ealloc
  rw [ensures_bind, ensures_get, ensures_ite, ensures_ite, ensures_pure]
  refine ⟨fun _ ↦ ensures_halt, fun hdir ↦ ⟨fun _ ↦ .refl hc, fun hv ↦ ?_⟩⟩
  rw [not_not] at hv
  cases hformat : formatname name with
  | none => exact ensures_pure.mpr (.refl hc)
  | some name' =>
    have hlen' := (formatname_length hformat).trans hlen
    dsimp only
    apply ((dirlookup_sound h hd hs name' hdp).and (dirlookup_names h hd hs hc hlen' hdp)).bind
    rintro r c1 ⟨⟨h1, hs1, hkept1, hhit1⟩, hspelled1, -⟩
    cases r with
    | some e => exact ensures_pure.mpr hspelled1
    | none =>
      obtain ⟨hrdp1, hvdp1, -, -, hadp1⟩ := hkept1 dp hdp
      have h1' : Sound d c1 := h1.congr fun x ↦ by rw [holds_none, add_zero]
      dsimp only
      apply ((eget_sound h1' hd hs1 name' hrdp1).and
        (eget_names hspelled1.distinct dp name')).bind
      rintro s c2 ⟨⟨h2, hkept2, hgot2⟩, hc2, -, hat2⟩
      have hspelled2 : Spelled d c c2 := hspelled1.trans ⟨hc2, fun e names _ ↦ hat2 e names⟩
      obtain ⟨hrdp2, hvdp2, -, -, hadp2⟩ := hkept2 dp hrdp1
      cases hgot2 with
      | hit hfound =>
        rw [hhit1 hv rfl] at hfound
        cases hfound
      | miss hunused hvalid href hsettled hhit =>
        have hfill : ∀ {c3 : Cache S} (x : Found), Same c2 c3 →
            Ensures (do
              fill s dp (name'.take fat32MaxFilename) x
              eunlock (.entry s)
              pure (some (Ent.entry s))) c3 fun _ c' ↦ Spelled d c c' := by
          intro c3 x h3
          refine (fill_names (h2.same h3) hd (hc2.alike h3.toAlike) _ x ?_ ?_ ?_ ?_ ?_ ?_ ?_
            ?_).bind ?_
          · rw [h3.valid, hvalid]
          · rw [h3.ref, href]
          · intro t ht
            rw [h3.ref, h3.valid]
            exact hsettled t ht
          · rw [h3.ref]
            exact hrdp2
          · rw [h3.valid, hvdp2, hvdp1, hv]
            decide
          · unfold Dirent.isDir at hdir ⊢
            rw [h3.attr, hadp2, hadp1]
            simpa using hdir
          · rw [List.length_take]
            exact min_le_left _ _
          · rw [Cache.hit_take, h3.hit, hhit]
          · rintro _ c4 ⟨h4, -⟩
            apply ensures_eunlock
            exact ensures_pure.mpr ((hspelled2.trans (h3.toAlike.spelled hc2)).trans h4)
        apply (elock_spec c2 _).bind
        rintro _ c3 ⟨rfl, -⟩
        rw [ensures_ite]
        refine ⟨fun _ ↦ ?_, fun _ ↦ hfill _ (.refl c3)⟩
        apply (allocClus_same c3).bind
        intro clus c4 h4
        exact hfill _ h4

/-! ### Paths -/

omit [DecidableEq S] [Fintype S] in
private theorem slash_not_mem_splitOn {path part : List UInt8} (h : part ∈ path.splitOn 0x2f) :
    0x2f ∉ part := by
  induction path generalizing part with
  | nil =>
    rw [List.splitOn_nil, List.mem_singleton] at h
    rw [h]
    exact List.not_mem_nil
  | cons b path ih =>
    rw [List.splitOn_cons_eq_if_modifyHead] at h
    split_ifs at h with hb
    · rcases List.mem_cons.mp h with rfl | h
      · exact List.not_mem_nil
      · exact ih h
    · cases hparts : path.splitOn 0x2f with
      | nil => exact absurd hparts (List.splitOn_ne_nil _ _)
      | cons first rest =>
        rw [hparts] at h ih
        rw [List.modifyHead_cons] at h
        rcases List.mem_cons.mp h with rfl | h
        · rw [List.mem_cons, not_or]
          refine ⟨?_, ih List.mem_cons_self⟩
          rintro rfl
          exact hb (beq_self_eq_true _)
        · exact ih (List.mem_cons_of_mem _ h)

omit [DecidableEq S] [Fintype S] in
private theorem isElem_of_mem_elements {path name : List UInt8} (h : name ∈ elements path) :
    IsElem name := by
  unfold elements at h
  obtain ⟨part, hpart, rfl⟩ := List.mem_map.mp h
  obtain ⟨hmem, hne⟩ := List.mem_filter.mp hpart
  refine ⟨?_, ?_, ?_⟩
  · rw [decide_eq_true_iff] at hne
    cases part with
    | nil => exact absurd rfl hne
    | cons b part => exact List.cons_ne_nil b _
  · exact fun hslash ↦ slash_not_mem_splitOn hmem (List.mem_of_mem_take hslash)
  · rw [List.length_take]
    exact min_le_left _ _

/-- The loop of `lookup_path` stays on ways from the root. The element that is left fits. -/
theorem lookupElems_names (parent : Bool) {names : List (List UInt8)}
    (hnames : ∀ name ∈ names, IsElem name) (hd : ∀ x, 0 ≤ d x) {c : Cache S} {e : Ent S}
    (h : Sound (fun x ↦ d x + holds (some e) x) c) (hs : Settled c) (hc : Distinct c) :
    Ensures (lookupElems parent names e) c fun r c' ↦ Spelled d c c' ∧
      (∀ x, r = some x → x.2.length ≤ fat32MaxFilename) ∧
        ((∃ way, Located c e way) → ∀ x, r = some x → ∃ way, Located c' x.1 way) := by
  have hgone : ∀ {c0 c1 : Cache S} {e0 e : Ent S}, Spelled d c0 c1 →
      Sound (fun x ↦ d x + holds (some e) x) c1 →
        Ensures (eput e >>= fun _ ↦ pure none) c1 fun r c' ↦ Spelled d c0 c' ∧
          (∀ x : Ent S × List UInt8, r = some x → x.2.length ≤ fat32MaxFilename) ∧
            ((∃ way, Located c0 e0 way) → ∀ x, r = some x → ∃ way, Located c' x.1 way) := by
    intro c0 c1 e0 e h0 h1
    simp only [ensures_bind, ensures_pure]
    apply (eput_sound hd h1).mono
    rintro _ c2 ⟨-, -, halike⟩
    exact ⟨h0.trans (halike.spelled h0.distinct), by simp, by simp⟩
  induction names generalizing c e with
  | nil =>
    rw [lookupElems, ensures_ite, ensures_pure]
    refine ⟨fun _ ↦ hgone (.refl hc) h, fun _ ↦ ⟨.refl hc, ?_, ?_⟩⟩
    · rintro x ⟨⟩
      exact Nat.zero_le _
    · rintro hat x ⟨⟩
      exact hat
  | cons name rest ih =>
    have helem := hnames name List.mem_cons_self
    rw [lookupElems, ensures_bind]
    apply (elock_spec c e).mono
    rintro _ c1 ⟨rfl, hpos⟩
    rw [ensures_bind, ensures_get]
    simp only [ensures_ite]
    refine ⟨fun _ ↦ ensures_eunlock (hgone (.refl hc) h), fun _ ↦ ⟨fun _ ↦ ?_, fun _ ↦ ?_⟩⟩
    · apply ensures_eunlock
      refine ensures_pure.mpr ⟨.refl hc, ?_, ?_⟩
      · rintro x ⟨⟩
        exact helem.length
      · rintro hat x ⟨⟩
        exact hat
    · rw [ensures_bind]
      have hdh := Sound.nonneg_add (e := e) hd
      apply ((dirlookup_sound h hdh hs name hpos).and
        (dirlookup_names h hdh hs hc helem.length hpos)).mono
      rintro r c2 ⟨⟨h2, hs2, -, -⟩, hspelled2, hat2⟩
      have hspelled2' : Spelled d c1 c2 := by
        apply hspelled2.mono
        intro x hx
        have := holds_nonneg (some e) x
        omega
      cases r with
      | none =>
        apply ensures_eunlock
        apply hgone hspelled2'
        exact h2.congr fun x ↦ by rw [holds_none, add_zero]
      | some next =>
        apply ensures_eunlock
        rw [ensures_bind]
        have h2' : Sound (fun x ↦ (d x + holds (some next) x) + holds (some e) x) c2 :=
          h2.congr fun x ↦ by omega
        apply (eput_sound (Sound.nonneg_add hd) h2').mono
        rintro _ c3 ⟨h3, hle3, halike3⟩
        have hc3 := hspelled2'.distinct.alike halike3
        apply (ih (fun n hn ↦ hnames n (List.mem_cons_of_mem _ hn)) h3
          (hs2.alike halike3 hle3) hc3).mono
        rintro r c4 ⟨hspelled4, hfit4, hat4⟩
        refine ⟨(hspelled2'.trans (halike3.spelled hspelled2'.distinct)).trans hspelled4,
          hfit4, ?_⟩
        intro hat
        obtain ⟨way, hway⟩ := hat2 helem hat next rfl
        exact hat4 ⟨way, hway.alike halike3⟩

private theorem lookupPath_names {c : Cache S} (h : Sound d c) (hd : ∀ x, 0 ≤ d x) (hs : Settled c)
    (hc : Distinct c) {cwd : Ent S} (path : List UInt8) (parent : Bool)
    (hcwd : cwd = .root ∨ 0 < (c.ent cwd).ref) :
    Ensures (lookupPath cwd path parent) c fun r c' ↦ Spelled d c c' ∧
      (∀ x, r = some x → x.2.length ≤ fat32MaxFilename) ∧
        ((∃ way, Located c cwd way) → ∀ x, r = some x → ∃ way, Located c' x.1 way) := by
  unfold lookupPath
  cases path with
  | nil =>
    rw [ensures_pure]
    exact ⟨.refl hc, by simp, by simp⟩
  | cons b path =>
    have hstart : ∀ {e : Ent S}, e = .root ∨ 0 < (c.ent e).ref →
        ((∃ way, Located c cwd way) → ∃ way, Located c e way) →
        Ensures (edup e >>= fun _ ↦ lookupElems parent (elements (b :: path)) e) c fun r c' ↦
          Spelled d c c' ∧ (∀ x, r = some x → x.2.length ≤ fat32MaxFilename) ∧
            ((∃ way, Located c cwd way) → ∀ x, r = some x → ∃ way, Located c' x.1 way) := by
      intro e he hway
      apply (edup_sound h he).bind
      rintro _ c1 ⟨h1, halike1, -, hsame1⟩
      have hs1 : Settled c1 := by
        apply hs.dup halike1
        intro t ht
        left
        by_cases hte : Ent.entry t = e
        · rw [hte]
          exact he.resolve_left (by rw [← hte]; simp)
        · rwa [hsame1 _ hte] at ht
      apply (lookupElems_names parent (fun _ ↦ isElem_of_mem_elements) hd h1 hs1
        (hc.alike halike1)).mono
      rintro r c2 ⟨hspelled2, hfit2, hat2⟩
      refine ⟨(halike1.spelled hc).trans hspelled2, hfit2, ?_⟩
      intro hat
      obtain ⟨way, hlocated⟩ := hway hat
      exact hat2 ⟨way, hlocated.alike halike1⟩
    dsimp only
    split_ifs
    · exact hstart (.inl rfl) fun _ ↦ ⟨[], .root⟩
    · exact hstart hcwd id

/-- `ename` keeps the names. -/
theorem ename_names {c : Cache S} (h : Sound d c) (hd : ∀ x, 0 ≤ d x) (hs : Settled c)
    (hc : Distinct c) {cwd : Ent S} (path : List UInt8)
    (hcwd : cwd = .root ∨ 0 < (c.ent cwd).ref) :
    Ensures (ename cwd path) c fun r c' ↦ Spelled d c c' ∧
      ((∃ way, Located c cwd way) → ∀ e, r = some e → ∃ way, Located c' e way) := by
  unfold ename
  apply (lookupPath_names h hd hs hc path false hcwd).bind
  rintro r c1 ⟨h1, -, hat1⟩
  cases r with
  | none => exact ensures_pure.mpr ⟨h1, by simp⟩
  | some r =>
    refine ensures_pure.mpr ⟨h1, ?_⟩
    rintro hat e ⟨⟩
    exact hat1 hat r rfl

/-! ### Creation and removal -/

/-- `create` keeps the names. -/
theorem create_names {c : Cache S} (h : Sound d c) (hd : ∀ x, 0 ≤ d x) (hs : Settled c)
    (hc : Distinct c) {cwd : Ent S} (path : List UInt8) (kind : NodeKind)
    (major minor off : Nat) (hcwd : cwd = .root ∨ 0 < (c.ent cwd).ref) :
    Ensures (create cwd path kind major minor off) c fun _ c' ↦ Spelled d c c' := by
  unfold create
  apply ((lookupPath_sound h hd hs path true hcwd).and
    (lookupPath_names h hd hs hc path true hcwd)).bind
  rintro r c1 ⟨⟨h1, hs1⟩, hspelled1, hfit1, -⟩
  cases r with
  | none => exact ensures_pure.mpr hspelled1
  | some r =>
    obtain ⟨dp, name⟩ := r
    have hdp : lookupResult (some (dp, name)) = some dp := rfl
    rw [hdp] at h1
    have hdh := Sound.nonneg_add (e := dp) hd
    dsimp only
    apply (elock_spec c1 dp).bind
    rintro _ c2 ⟨rfl, hpos⟩
    apply ((ealloc_sound h1 hdh hs1 name kind.attr off hpos).and
      (ealloc_names h1 hdh hs1 hspelled1.distinct (hfit1 _ rfl) kind.attr off hpos)).bind
    rintro r c3 ⟨⟨h3, hs3⟩, hspelled3⟩
    have hspelled3' : Spelled d c c3 := by
      apply hspelled1.trans
      apply hspelled3.mono
      intro x hx
      have := holds_nonneg (some dp) x
      omega
    cases r with
    | none =>
      dsimp only
      apply ensures_eunlock
      rw [ensures_bind]
      have h4 : Sound (fun x ↦ d x + holds (some dp) x) c3 :=
        h3.congr fun x ↦ by rw [holds_none, add_zero]
      apply (eput_sound hd h4).mono
      rintro _ c5 ⟨-, -, halike5⟩
      exact ensures_pure.mpr (hspelled3'.trans (halike5.spelled hspelled3'.distinct))
    | some e =>
      have h3' : Sound (fun x ↦ (d x + holds (some e) x) + holds (some dp) x) c3 :=
        h3.congr fun x ↦ by omega
      dsimp only
      rw [ensures_bind, ensures_get, ensures_ite]
      constructor
      · intro _
        apply ensures_eunlock
        apply (eput_sound hdh h3).bind
        rintro _ c5 ⟨h5, -, halike5⟩
        apply (eput_sound hd h5).bind
        rintro _ c6 ⟨-, -, halike6⟩
        exact ensures_pure.mpr
          (hspelled3'.trans ((halike5.trans halike6).spelled hspelled3'.distinct))
      · intro _
        apply (setDevice_same c3 e kind major minor).bind
        intro _ c4 hsame4
        apply ensures_eunlock
        apply (eput_sound (Sound.nonneg_add hd) (h3'.same hsame4)).bind
        rintro _ c6 ⟨-, -, halike6⟩
        apply (elock_spec c6 e).bind
        rintro _ c7 ⟨rfl, -⟩
        exact ensures_pure.mpr
          (hspelled3'.trans ((hsame4.toAlike.trans halike6).spelled hspelled3'.distinct))

omit [Fintype S] in
/-- A removed entry is not cached any more, but stays on its way. -/
theorem eremove_names {c : Cache S} (hc : Distinct c) (s : S) :
    Ensures (eremove (.entry s)) c fun _ c' ↦ Spelled d c c' := by
  refine (setEnt_names hc s ?_ ?_ ?_).mono ?_
  · intro x
    split_ifs
    · exact ⟨rfl, rfl, rfl⟩
    · exact ⟨rfl, rfl, rfl⟩
  · intro x
    split_ifs with hone
    · exact id
    · rw [not_not] at hone
      intro _
      rw [hone]
      decide
  · intro x
    split_ifs with hone
    · exact id
    · exact fun _ ↦ not_not.mp hone
  · rintro _ c' ⟨hc', -, hat⟩
    exact ⟨hc', fun e names _ ↦ hat e names⟩

/-- `sys_remove` keeps the names. -/
theorem sysRemove_names {c : Cache S} (h : Sound d c) (hd : ∀ x, 0 ≤ d x) (hs : Settled c)
    (hc : Distinct c) {cwd : Ent S} (path : List UInt8)
    (hcwd : cwd = .root ∨ 0 < (c.ent cwd).ref) :
    Ensures (sysRemove cwd path) c fun _ c' ↦ Spelled d c c' := by
  unfold sysRemove
  rw [ensures_ite, ensures_pure]
  refine ⟨fun _ ↦ .refl hc, fun _ ↦ ?_⟩
  apply ((ename_sound h hd hs path hcwd).and (ename_names h hd hs hc path hcwd)).bind
  rintro r c1 ⟨⟨h1, hs1⟩, hspelled1, -⟩
  cases r with
  | none => exact ensures_pure.mpr hspelled1
  | some e =>
    have hend : ∀ {c2 : Cache S} (b : Bool), Sound (fun x ↦ d x + holds (some e) x) c2 →
        Spelled d c c2 → Ensures (do
          eunlock e
          eput e
          pure b) c2 fun _ c' ↦ Spelled d c c' := by
      intro c2 b h2 hspelled2
      simp only [ensures_bind, ensures_pure]
      apply (eunlock_spec c2 e).mono
      rintro _ c3 rfl
      apply (eput_sound hd h2).mono
      rintro _ c4 ⟨-, -, halike⟩
      exact hspelled2.trans (halike.spelled hspelled2.distinct)
    dsimp only
    apply (elock_spec c1 e).bind
    rintro _ c2 ⟨rfl, -⟩
    have hrest : ∀ {c3 : Cache S} (empty : Bool), Same c2 c3 →
        Ensures (removeFound e c2 empty) c3 fun _ c' ↦ Spelled d c c' := by
      intro c3 empty h3
      have hspelled3 := hspelled1.trans (h3.toAlike.spelled hspelled1.distinct)
      unfold removeFound
      rw [ensures_ite]
      refine ⟨fun _ ↦ hend false (h1.same h3) hspelled3, fun _ ↦ ?_⟩
      cases e with
      | root =>
        rw [hspelled1.distinct.top]
        exact ensures_halt
      | entry s =>
        split
        · exact ensures_halt
        · rename_i p _
          apply (elock_spec c3 p).bind
          rintro _ c4 ⟨rfl, -⟩
          apply ((eremove_sound (h1.same h3) (hs1.same h3) (.entry s)).and
            (eremove_names hspelled3.distinct s)).bind
          rintro _ c5 ⟨⟨h5, -⟩, hspelled5⟩
          apply ensures_eunlock
          exact hend true h5 (hspelled3.trans hspelled5)
    rw [ensures_bind, ensures_get, ensures_ite]
    constructor
    · intro _
      apply (isdirempty_same c2).bind
      intro empty c3 h3
      exact hrest empty h3
    · intro _
      rw [ensures_bind, ensures_pure]
      exact hrest true (.refl c2)

end Xv6K210.Ecache
