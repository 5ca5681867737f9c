import Xv6K210.Mount.Reuse

/-!
# Entries that are created

Sources `kernel/fs/fat32.c:562–606` and `kernel/syscall/sysfile.c:115–161`. `ealloc`
writes the entry where `dirlookup` left `*poff`, and the slot of the cache is filled with what was
written. A later `dirlookup` that misses the cache reads it back from the disk, unless `emake` took
the first two slots of the directory for those of the dot entries, or the name reads as a deleted
slot.
-/

namespace Xv6K210.Mount

open Xv6K210.Base Xv6K210.Ecache Xv6K210.Fs Prog Function

variable {S : Type} [DecidableEq S]

/-- `ealloc`. The number that the volume's entry keeps for its directory is not used here: the
directory is `dp`. -/
def ealloc (dp : Ent S) (name : List UInt8) (attr : UInt8) : Mounted S (Option (Ent S)) := do
  let st ← get
  if (st.cache.ent dp).isDir = false then
    Prog.halt "ealloc not dir"
  else if (st.cache.ent dp).valid ≠ 1 then
    pure none
  else
    match formatname name with
    | none => pure none
    | some name =>
      match ← dirlookup dp name with
      | (some e, _) => pure (some e)
      | (none, off) =>
        let s ← lift (eget dp name)
        lift (elock (.entry s))
        let st ← get
        let r ← ofVolume (eallocNew st.vol 0 (st.dirent dp) name attr off)
        setVol r.1
        setDirent dp r.2.1
        setDirent (.entry s) r.2.2
        lift (fill s dp r.2.2.filename ⟨r.2.2.attr, r.2.2.firstClus, r.2.2.fileSize, r.2.2.off⟩)
        lift (eunlock (.entry s))
        pure (some (.entry s))

variable {st st' : Store S} {dp : Ent S} {s : S} {name raw : List UInt8} {l : List Nat}

/-! ### The second `eget` -/

/-- What `dirlookup` left of the cache when it found nothing. -/
structure Missed (l : List Nat) (dp : Ent S) (s : S) (st st' : Store S) : Prop where
  looked : Looked l dp s st st'
  unused : Unused dp s st st'

omit [DecidableEq S] in
/-- Other entries stay as they are. -/
theorem Missed.ent (h : Missed l dp s st st') {e : Ent S} (he : e ≠ .entry s) :
    st'.cache.ent e = st.cache.ent e := by
  by_cases hedp : e = dp
  · rw [hedp]
    exact h.unused.dir
  · exact h.looked.ent e he hedp

/-- The name is still not cached. -/
theorem Missed.hit (h : Missed l dp s st st') (hhit : st.cache.hit dp name = none) :
    st'.cache.hit dp name = none := by
  unfold Cache.hit at hhit ⊢
  rw [h.looked.order, List.find?_eq_none] at *
  intro k hk
  by_cases hks : k = s
  · subst hks
    simp [Cache.caches, h.unused.valid]
  · have := hhit k hk
    rwa [Cache.caches, h.ent (by simpa using hks)]

omit [DecidableEq S] in
/-- The same slot is recycled. -/
theorem Missed.victim (h : Missed l dp s st st') (hvictim : st.cache.victim = some s) :
    st'.cache.victim = some s := by
  have hfree : (st.cache.ent (.entry s)).ref = 0 :=
    of_decide_eq_true (lastWith_some hvictim).2
  have heq : ∀ k, (st'.cache.ent (.entry k)).ref = 0 ↔ (st.cache.ent (.entry k)).ref = 0 := by
    intro k
    by_cases hks : k = s
    · rw [hks, h.unused.ref, hfree]
    · rw [h.ent (by simpa using hks)]
  unfold Cache.victim at hvictim ⊢
  rw [h.looked.order, ← hvictim]
  simp only [heq]

/-! ### What is made -/

/-- The slot `s` holds the new entry `ep` of the directory `dp`. -/
structure Made (l : List Nat) (dp : Ent S) (s : S) (ep : Fs.Dirent) (st st' : Store S) : Prop where
  order : st'.cache.order = st.cache.order
  ent : ∀ e, e ≠ .entry s → e ≠ dp → st'.cache.ent e = st.cache.ent e
  cursor : ∀ e, e ≠ .entry s → e ≠ dp → st'.cursor e = st.cursor e
  dir : st'.cache.ent dp = { st.cache.ent dp with ref := (st.cache.ent dp).ref + 1 }
  live : LiveDir st'.vol l (st'.dirent dp)
  ref : (st'.cache.ent (.entry s)).ref = 1
  valid : (st'.cache.ent (.entry s)).valid = 1
  dirty : (st'.cache.ent (.entry s)).dirty = false
  parent : (st'.cache.ent (.entry s)).parent = some dp
  filename : (st'.cache.ent (.entry s)).filename = ep.filename
  off : (st'.cache.ent (.entry s)).off = ep.off
  attr : (st'.cache.ent (.entry s)).attr = ep.attr
  firstClus : (st'.cache.ent (.entry s)).firstClus = ep.firstClus
  fileSize : (st'.cache.ent (.entry s)).fileSize = ep.fileSize

/-- There is room for an entry with the name behind the last entry of a directory: in the 32 bits of
an offset, and on the volume. -/
structure Room (v : Volume) (l : List Nat) (items : List DirItem) (name : List UInt8)
    (kind : NodeKind) : Prop where
  bound : 32 * (tailSlot items + (longCount name + 1)) < 2 ^ 32
  free : (if kind = .dir then 1 else 0) +
    (clustersFor v.geom (32 * (tailSlot items + (longCount name + 1))) - l.length) ≤ freeCount v

/-- A name that `formatname` accepted is no dot entry. -/
theorem formatname_ne_dots (h : formatname raw = some name) :
    name ≠ [dotCh] ∧ name ≠ [dotCh, dotCh] := by
  obtain ⟨-, hfirst⟩ := formatname_spec h
  constructor
  · rintro rfl
    exact (hfirst dotCh [] rfl).2 rfl
  · rintro rfl
    exact (hfirst dotCh [dotCh] rfl).2 rfl

/-- Behind the miss `ealloc` takes the slot again, and writes the entry. -/
theorem ealloc_missed (h : LiveDir st.vol l (st.dirent dp)) (hname : formatname raw = some name)
    {off : Nat} (hlookup : dirlookup dp name st = .ok ((none, off), st')) (attr : UInt8)
    {post : Option (Ent S) → Store S → Prop}
    (hpost : Returns (do
      let s ← lift (eget dp name)
      lift (elock (.entry s))
      let st ← get
      let r ← ofVolume (eallocNew st.vol 0 (st.dirent dp) name attr off)
      setVol r.1
      setDirent dp r.2.1
      setDirent (.entry s) r.2.2
      lift (fill s dp r.2.2.filename ⟨r.2.2.attr, r.2.2.firstClus, r.2.2.fileSize, r.2.2.off⟩)
      lift (eunlock (.entry s))
      pure (some (.entry s))) st' post) :
    Returns (ealloc dp raw attr) st post := by
  have hisDir : (st.cache.ent dp).isDir = true := decide_eq_true h.isDir
  have hvalid : (st.cache.ent dp).valid = 1 := h.valid
  unfold ealloc
  rw [returns_bind, returns_get, if_neg (by simp [hisDir]), if_neg (not_not.mpr hvalid)]
  simp only [hname]
  rw [returns_bind]
  exact ⟨_, _, hlookup, hpost⟩

omit [DecidableEq S] in
private theorem elock_returns {c : Cache S} {e : Ent S} (h : 1 ≤ (c.ent e).ref)
    {post : Unit → Cache S → Prop} (hpost : post () c) : Returns (elock e) c post := by
  unfold Ecache.elock
  rw [returns_bind, returns_get, if_neg (by omega), returns_pure]
  exact hpost

omit [DecidableEq S] in
private theorem eunlock_returns {c : Cache S} {e : Ent S} (h : 1 ≤ (c.ent e).ref)
    {post : Unit → Cache S → Prop} (hpost : post () c) : Returns (eunlock e) c post := by
  unfold Ecache.eunlock
  rw [returns_bind, returns_get, if_neg (by omega), returns_pure]
  exact hpost

/-- The slot `s` is filled with the entry that was written to the volume. -/
theorem ealloc_filled {off : Nat} {attr : UInt8} {v : Volume} {d ep : Fs.Dirent}
    (hdp : dp ≠ .entry s) (href : (st.cache.ent (.entry s)).ref = 1)
    (hnew : eallocNew st.vol 0 (st.dirent dp) name attr off = .ok (v, d, ep))
    (hsame : SameEntry { st.dirent dp with ref := (st.dirent dp).ref + 1 } d)
    (hlive : LiveDir v l d) :
    Returns (do
      lift (elock (.entry s))
      let st ← get
      let r ← ofVolume (eallocNew st.vol 0 (st.dirent dp) name attr off)
      setVol r.1
      setDirent dp r.2.1
      setDirent (.entry s) r.2.2
      lift (fill s dp r.2.2.filename ⟨r.2.2.attr, r.2.2.firstClus, r.2.2.fileSize, r.2.2.off⟩)
      lift (eunlock (.entry s))
      pure (some (Ent.entry s))) st fun r st' ↦ r = some (.entry s) ∧ st'.vol = v ∧
        Made l dp s ep st st' := by
  rw [returns_bind]
  apply returns_lift
  apply elock_returns (by omega)
  rw [returns_bind, returns_get, returns_bind]
  apply returns_ofVolume hnew
  unfold setVol setDirent
  rw [returns_bind, returns_modify, returns_bind, returns_modify, returns_bind, returns_modify,
    returns_bind]
  dsimp only
  have hdir : ({ st.cache.ent dp with
      filename := d.filename, attr := d.attr, firstClus := d.firstClus,
      fileSize := d.fileSize, dirty := d.dirty, valid := d.valid } : Ecache.Dirent S) =
      st.cache.ent dp := by
    rw [hsame]
    rfl
  rw [hdir, update_eq_self]
  apply returns_lift
  apply (fill_returns _ hdp ep.filename ⟨ep.attr, ep.firstClus, ep.fileSize, ep.off⟩).mono
  rintro _ c ⟨horder, hother, hdp', hs⟩
  rw [returns_bind]
  apply returns_lift
  dsimp only at horder hother hdp' hs ⊢
  rw [update_self] at hs
  rw [update_of_ne hdp] at hdp'
  have hrefs : (c.ent (.entry s)).ref = 1 := by
    rw [hs]
    exact href
  apply eunlock_returns (by omega)
  rw [returns_pure]
  refine ⟨rfl, rfl, horder, fun e he hedp ↦ ?_, fun e he hedp ↦ ?_, hdp', ?_, hrefs, ?_, ?_, ?_, ?_,
    ?_, ?_, ?_, ?_⟩
  · rw [hother e he hedp, update_of_ne he]
  · dsimp only
    rw [update_of_ne he, update_of_ne hedp]
  · have hd : d = { st.dirent dp with
        ref := (st.dirent dp).ref + 1, curClus := d.curClus, clusCnt := d.clusCnt } := hsame
    unfold Store.dirent
    dsimp only
    rw [hdp', update_of_ne hdp, update_self]
    rw [hd] at hlive
    exact hlive
  all_goals rw [hs]

/-- `ealloc` of a name that is neither cached nor in the directory. -/
theorem ealloc_made {i : Nat} {chain : Nat → List Nat} {body : List DirItem}
    {dels : List (List UInt8)} (kind : NodeKind) (hw : FatWf st.vol chain) (h1 : st.vol.fat 1 ≠ 0)
    (h : LiveDir st.vol (chain i) (st.dirent dp))
    (hdir : WholeDir st.vol (chain i) (body ++ dels.map .deleted))
    (htail : tailSlot (body ++ dels.map .deleted) = (slotsOf body).length)
    (hname : formatname raw = some name)
    (hnone : (entriesFrom 0 (body ++ dels.map .deleted)).find? (hasName name) = none)
    (hvisible : Visible name (body ++ dels.map .deleted))
    (hroom : Room st.vol (chain i) (body ++ dels.map .deleted) name kind)
    (hused : dp = .root ∨ 0 < (st.cache.ent dp).ref) (hhit : st.cache.hit dp name = none)
    (hvictim : st.cache.victim = some s) :
    Returns (ealloc dp raw kind.attr) st fun r st' ↦ r = some (.entry s) ∧
      ∃ ep dp1 dp2 chain', Made (chain' i) dp s ep st st' ∧ Recordable ep ∧
        ep.filename = name.take fat32MaxFilename ∧ ep.attr = eallocAttr kind.attr ∧
        ep.off = 32 * (slotsOf body).length ∧ (st.dirent dp).firstClus = dp2.firstClus ∧
        Entered st.vol chain i dp1 body dels (madeItem ep (32 * (slotsOf body).length)) st'.vol
          chain' dp2 := by
  obtain ⟨hdot, hdots⟩ := formatname_ne_dots hname
  obtain ⟨hchars, hfirst⟩ := formatname_spec hname
  have hdp := used_ne_victim hused hvictim
  obtain ⟨⟨r, off⟩, st1, hlookup, hlooked, hout⟩ :=
    dirlookup_disk h hdir.image hvisible hdot hdots hused hhit hvictim
  cases hout with
  | found e first => rw [hnone] at first; cases first
  | missing _ result unused =>
    obtain ⟨rfl, rfl⟩ := Prod.mk.inj result
    have hmissed : Missed (chain i) dp s st st1 := ⟨hlooked, unused⟩
    rw [htail] at hlookup
    apply ealloc_missed h hname hlookup
    rw [returns_bind]
    apply returns_lift
    apply eget_free (hmissed.hit hhit) (hmissed.victim hvictim)
    obtain ⟨hbound, hfree⟩ := hroom
    rw [htail] at hbound hfree
    have hvol : st1.vol = st.vol := hlooked.vol
    have hlive : LiveDir st.vol (chain i) (st1.dirent dp) := hlooked.dir
    obtain ⟨v, d, ep, chain', hnew, hent, hrec, hep, hattr, hsize, hoff, -⟩ :=
      eallocNew_entered kind 0 hw h1 hlive hdir hchars hfirst hbound hfree
    set st2 : Store S := { st1 with
      cache := { st1.cache with
        ent := update st1.cache.ent (.entry s)
          { st1.cache.ent (.entry s) with ref := 1, off := 0, valid := 0, dirty := false } } } with
            hst2
    have hother : ∀ e, e ≠ .entry s → st2.cache.ent e = st.cache.ent e := by
      intro e he
      rw [hst2]
      dsimp only
      rw [update_of_ne he, hmissed.ent he]
    have hself : (st2.cache.ent (.entry s)).ref = 1 := by
      rw [hst2]
      dsimp only
      rw [update_self]
    have hdirent : st2.dirent dp = st1.dirent dp := by
      unfold Store.dirent
      rw [hother dp hdp, hmissed.ent hdp]
    rw [← hvol, ← hdirent] at hnew
    rw [← hdirent] at hent
    apply (ealloc_filled hdp hself hnew hent.entry hent.dir).mono
    rintro r st' ⟨rfl, rfl, hmade⟩
    refine ⟨rfl, ep, _, d, chain', { hmade with
      order := hmade.order.trans hlooked.order
      ent := fun e he hedp ↦ (hmade.ent e he hedp).trans (hother e he)
      cursor := fun e he hedp ↦ (hmade.cursor e he hedp).trans (hlooked.cursor e he hedp)
      dir := ?_ }, hrec, hep, hattr, hoff, ?_, hent⟩
    · rw [hmade.dir, hother dp hdp]
    · have hsame : st.dirent dp = { st2.dirent dp with
          curClus := (st.dirent dp).curClus, clusCnt := (st.dirent dp).clusCnt } := by
        unfold Store.dirent
        rw [hother dp hdp]
      rw [hsame, hent.entry]

/-! ### Reading from the disk -/

/-- What `dirlookup` has of an entry of a directory. -/
def foundOf (e : Nat × Nat × Fs.Dirent) : Found :=
  ⟨e.2.2.attr, e.2.2.firstClus, e.2.2.fileSize, e.1⟩

/-- What a slot of the cache has of its entry. -/
def heldBy (d : Ecache.Dirent S) : Found := ⟨d.attr, d.firstClus, d.fileSize, d.off⟩

/-- Wherever the name is not cached in the directory `dp`, which starts at the cluster `clus`,
`dirlookup` fills a slot with `x`. -/
structure Reads (v : Volume) (clus : Nat) (dp : Ent S) (name : List UInt8) (x : Found) : Prop where
  named : name ≠ [dotCh] ∧ name ≠ [dotCh, dotCh]
  run : ∀ (st : Store S) s l, st.vol = v → LiveDir v l (st.dirent dp) →
    (st.cache.ent dp).firstClus = clus → (dp = .root ∨ 0 < (st.cache.ent dp).ref) →
    st.cache.hit dp name = none → st.cache.victim = some s →
    ∃ off st', dirlookup dp name st = .ok ((some (.entry s), off), st') ∧
      heldBy (st'.cache.ent (.entry s)) = x

variable {v : Volume} {d : Fs.Dirent} {items : List DirItem} {e : Nat × Nat × Fs.Dirent} {x : Found}

/-- The first entry with the name is read. -/
theorem reads_first (hl : LiveDir v l d) (himg : ImageFrom v l 0 items)
    (hdots : name ≠ [dotCh] ∧ name ≠ [dotCh, dotCh]) (hname : Visible name items)
    (hfirst : (entriesFrom 0 items).find? (hasName name) = some e) :
    Reads v d.firstClus dp name (foundOf e) := by
  refine ⟨hdots, ?_⟩
  rintro st s l' rfl h hclus hused hhit hvictim
  obtain rfl : l' = l := hl.unique h hclus
  obtain ⟨⟨r, off⟩, st', hrun, -, hout⟩ :=
    dirlookup_disk h himg hname hdots.1 hdots.2 hused hhit hvictim
  cases hout with
  | missing none =>
    rw [hfirst] at none
    cases none
  | found e' first result holds =>
    rw [hfirst] at first
    obtain rfl : r = some (.entry s) := result
    cases first
    refine ⟨off, st', hrun, ?_⟩
    rw [heldBy, holds.attr, holds.firstClus, holds.fileSize, holds.off]
    rfl

/-- A store in which nothing but the directory is cached. -/
theorem exists_idle (hl : LiveDir v l d) (hdp : dp ≠ .entry s) : ∃ st : Store S,
    st.vol = v ∧ LiveDir v l (st.dirent dp) ∧ (st.cache.ent dp).firstClus = d.firstClus ∧
      0 < (st.cache.ent dp).ref ∧ (∀ name, st.cache.hit dp name = none) ∧
      st.cache.victim = some s := by
  let blank : Ecache.Dirent S :=
    ⟨[], d.attr, d.firstClus, 0, 0, false, 1, 1, none, 0, 0⟩
  let ent : Ent S → Ecache.Dirent S :=
    update (fun _ ↦ blank) (.entry s) { blank with valid := 0, ref := 0 }
  have hself : ent (.entry s) = { blank with valid := 0, ref := 0 } := update_self _ _ _
  have hdir : ent dp = blank := update_of_ne hdp _ _
  refine ⟨⟨⟨ent, [s], 0, [], [], []⟩, fun _ ↦ (d.firstClus, 0), v⟩, rfl, ?_, ?_, ?_, ?_, ?_⟩
  · apply hl.rewind
    · simp [Store.dirent, hdir, blank]
    · simp [Store.dirent, hdir, blank]
    · simp [Store.dirent, hdir, blank, hl.valid]
    · simp [Store.dirent, hdir, blank]
    · rfl
  · change (ent dp).firstClus = _
    rw [hdir]
  · change 0 < (ent dp).ref
    rw [hdir]
    exact Nat.one_pos
  · intro name
    simp [Cache.hit, Cache.caches, hself]
  · simp [Cache.victim, lastWith, hself]

/-- What is read is the first entry with the name, or stands where no entry does. -/
theorem Reads.cases (h : Reads v d.firstClus dp name x) (hl : LiveDir v l d)
    (himg : ImageFrom v l 0 items) (hdp : dp ≠ .entry s) :
    (Visible name items ∧ ∃ e, (entriesFrom 0 items).find? (hasName name) = some e ∧
      foundOf e = x) ∨
      ∀ e ∈ entriesFrom 0 items, e.1 ≠ x.off := by
  obtain ⟨st, rfl, hlive, hclus, href, hhit, hvictim⟩ := exists_idle hl hdp
  obtain ⟨off, st', hrun, hheld⟩ := h.run st s l rfl hlive hclus (.inr href) (hhit name) hvictim
  by_cases hname : Visible name items
  · left
    refine ⟨hname, ?_⟩
    obtain ⟨r, st1, hrun1, -, hout⟩ :=
      dirlookup_disk hlive himg hname h.named.1 h.named.2 (.inr href) (hhit name) hvictim
    rw [hrun] at hrun1
    cases hrun1
    cases hout with
    | missing _ result => cases result
    | found e first _ holds =>
      refine ⟨e, first, ?_⟩
      rw [← hheld, heldBy, holds.attr, holds.firstClus, holds.fileSize, holds.off]
      rfl
  · right
    have hrecycled : (st.recycled s).valid = 0 := rfl
    obtain ⟨out, hsearch, -, hvalid, hsame, honChain, hne⟩ :=
      searchDir_hidden hname hlive hrecycled himg
    obtain ⟨r, st1, hrun1, -, hended⟩ := dirlookup_returns hlive hsearch hsame honChain hvalid
      h.named.1 h.named.2 (.inr href) (hhit name) hvictim
    rw [hrun] at hrun1
    cases hrun1
    cases hended with
    | missing _ result => cases result
    | found _ _ taken =>
      rw [← hheld, heldBy, taken.off]
      exact hne

/-- Without an entry that ends the search `dirlookup` finds nothing. -/
theorem dirlookup_not_found (h : LiveDir st.vol l (st.dirent dp)) (hdot : name ≠ [dotCh])
    (hdots : name ≠ [dotCh, dotCh]) (hdp : dp ≠ .entry s) (hhit : st.cache.hit dp name = none)
    (hvictim : st.cache.victim = some s)
    (hnot : ∀ out, searchDir st.vol name (st.dirent dp) (st.recycled s) = .ok out →
      out.found = false) : Ensures (dirlookup dp name) st fun r _ ↦ r.1 = none := by
  have hlift : Returns (lift (eget dp name)) st fun s' st1 ↦ s' = s ∧ st1 = { st with
      cache := { st.cache with
        ent := update st.cache.ent (.entry s)
          { st.cache.ent (.entry s) with ref := 1, off := 0, valid := 0, dirty := false } } } :=
    returns_lift (eget_free hhit hvictim ⟨rfl, rfl⟩)
  have hmiss : Ensures (do
      let s ← lift (eget dp name)
      let st ← get
      if (st.cache.ent (.entry s)).valid = 1 then
        pure (some (Ent.entry s), 0)
      else
        searchMiss dp s name) st fun r _ ↦ r.1 = none := by
    rw [ensures_bind]
    apply hlift.ensures.mono
    rintro t _ ⟨rfl, rfl⟩
    rw [ensures_bind, ensures_get]
    rw [if_neg (by simp)]
    unfold searchMiss
    rw [ensures_bind, ensures_get, ensures_bind]
    apply ensures_ofVolume
    intro out hout
    have hsame : searchDir st.vol name (st.dirent dp) (st.recycled t) = .ok out := by
      rw [← hout]
      unfold Store.recycled Store.dirent
      dsimp only
      rw [update_self, update_of_ne hdp]
      rfl
    rw [ensures_bind]
    unfold setDirent
    rw [ensures_modify, ensures_bind, ensures_modify, hnot out hsame, if_neg Bool.false_ne_true,
      ensures_bind]
    exact ⟨fun _ _ _ ↦ ensures_pure.mpr rfl⟩
  constructor
  intro r st' hrun
  rw [dirlookup_named h hdot hdots] at hrun
  exact hmiss.of_ok r st' hrun

/-- Of a well-formed directory the search finds nothing exactly if no entry has the name, and no
deleted slots are taken for one. -/
theorem coldSearch_none (hl : LiveDir v l d) (himg : ImageFrom v l 0 items) :
    coldSearch v d.firstClus name = .ok none ↔
      Visible name items ∧ (entriesFrom 0 items).find? (hasName name) = none := by
  have hl' : LiveDir v l
      { attr := attrDirectory, firstClus := d.firstClus, curClus := d.firstClus, valid := 1 } :=
    ⟨hl.chain, hl.nodup, ⟨hl.onChain.head, fun _ ↦ hl.onChain.getElem?_zero hl.firstClus⟩,
      hl.firstClus, show attrDirectory &&& attrDirectory ≠ 0 by decide, rfl⟩
  have hblank : ({} : Fs.Dirent).valid = 0 := rfl
  have hfound : ∀ r, searchDir v name
      { attr := attrDirectory, firstClus := d.firstClus, curClus := d.firstClus, valid := 1 } {} =
      .ok r → (coldSearch v d.firstClus name = .ok none ↔ r.found = false) := by
    intro r hr
    rw [coldSearch, hr]
    cases hf : r.found <;> simp [hf]
  by_cases hname : Visible name items
  · obtain ⟨r, hr, hs⟩ := searchDir_image hname hl' hblank himg
    rw [hfound r hr]
    cases hfind : (entriesFrom 0 items).find? (hasName name) with
    | none => simp [hname, (hs.miss hfind).1]
    | some e => simp [(hs.hit e hfind).found]
  · obtain ⟨r, hr, hf, -⟩ := searchDir_hidden hname hl' hblank himg
    rw [hfound r hr, hf]
    simp [hname]

/-! ### Created entries are found again -/

/-- `ealloc` creates the entry, and once its slot was recycled `dirlookup` reads it back from the
disk; and so it does with the entries that it found before. -/
def FoundAgain (st : Store S) (dp : Ent S) (raw : List UInt8) (attr : UInt8) : Prop :=
  ∃ name e st', formatname raw = some name ∧ ealloc dp raw attr st = .ok (some e, st') ∧
    Reads st'.vol (st.cache.ent dp).firstClus dp name (heldBy (st'.cache.ent e)) ∧
    ∀ es, listing st.vol (st.dirent dp) = .ok es → ∀ x ∈ es,
      Reads st.vol (st.cache.ent dp).firstClus dp x.2.2.filename (foundOf x) →
      Reads st'.vol (st.cache.ent dp).firstClus dp x.2.2.filename (foundOf x)

/-- The items of a directory in which an entry was made. -/
theorem Visible.made {body : List DirItem} {dels : List (List UInt8)}
    (h : Visible name (body ++ dels.map .deleted)) (htrim : Trimmed body) (it : DirItem)
    (dels' : List (List UInt8)) : Visible name (body ++ it :: dels'.map .deleted) := by
  rw [List.append_cons]
  exact (h.left.concat fun _ _ _ ↦ htrim).append_deleted dels'

private theorem entriesFrom_made (body : List DirItem) (it : DirItem) (dels' : List (List UInt8)) :
    entriesFrom 0 (body ++ it :: dels'.map .deleted) =
      entriesFrom 0 body ++ entriesFrom (slotsOf body).length [it] := by
  rw [List.append_cons, entriesFrom_append_deleted, entriesFrom_append, Nat.zero_add]

variable {i k : Nat} {chain chain' : Nat → List Nat} {v' : Volume} {body : List DirItem}
  {dels : List (List UInt8)} {ep dp1 dp2 : Fs.Dirent}

/-- In the first two slots stands a dot entry, whatever the name is. -/
theorem not_reads_dots (hent : Entered v chain i dp1 body dels (madeItem ep (32 * k)) v' chain' dp2)
    (hk : (slotsOf body).length = k) (hfew : k < 2) (hrec : Recordable ep)
    (hnone : (entriesFrom 0 body).find? (hasName name) = none) (hdp : dp ≠ .entry s)
    (hfirst : d.firstClus = dp2.firstClus) (hoff : x.off = 32 * k) :
    ¬ Reads v' d.firstClus dp name x := by
  intro hread
  subst hk
  have hwhole := hent.whole (madeItem_wf hrec fun hlt ↦ absurd hlt (by omega))
    (madeItem_names hrec _ _)
  have hentries := entriesFrom_made body (madeItem ep (32 * (slotsOf body).length))
    (dels.drop (madeItem ep (32 * (slotsOf body).length)).slots.length)
  obtain ⟨short, hitem, hdots⟩ := decode_dots {} ep (show 32 * (slotsOf body).length ≤ 32 by omega)
  have hlast : entriesFrom (slotsOf body).length [madeItem ep (32 * (slotsOf body).length)] =
      [(32 * (slotsOf body).length, 1, decodeEntry {} [] short)] := by
    rw [hitem]
    rfl
  rw [hlast] at hentries
  rw [hfirst] at hread
  rcases hread.cases hent.dir hwhole.image hdp with ⟨-, e, hfind, -⟩ | hne
  · rw [hentries, List.find?_append, hnone, Option.none_or, List.find?_cons] at hfind
    have hother :
        hasName name (32 * (slotsOf body).length, 1, decodeEntry {} [] short) = false := by
      unfold hasName
      rcases hdots with hdots | hdots
      · rw [hdots]
        exact sameName_short (by decide) hread.named.1
      · rw [hdots]
        exact sameName_short (by decide) hread.named.2
    rw [hother] at hfind
    cases hfind
  · have hmem : (32 * (slotsOf body).length, 1, decodeEntry {} [] short) ∈
        entriesFrom 0 (body ++ madeItem ep (32 * (slotsOf body).length) ::
          (dels.drop (madeItem ep (32 * (slotsOf body).length)).slots.length).map .deleted) := by
      rw [hentries]
      exact List.mem_append_right _ List.mem_cons_self
    exact hne _ hmem hoff.symm

/-- A short name that reads as a deleted slot is not found. -/
theorem not_reads_deleted
    (hent : Entered v chain i dp1 body dels (madeItem ep (32 * k)) v' chain' dp2)
    (hk : (slotsOf body).length = k) (hmany : 2 ≤ k) (hrec : Recordable ep)
    (hbound : 32 * (k + (longCount ep.filename + 1)) < 2 ^ 32)
    (hhead : ep.filename.head? = some emptyEntry)
    (hname : Visible name (body ++ dels.map .deleted)) (htrim : Trimmed body)
    (hnone : (entriesFrom 0 body).find? (hasName name) = none) (hdp : dp ≠ .entry s)
    (hfirst : d.firstClus = dp2.firstClus) : ¬ Reads v' d.firstClus dp name x := by
  intro hread
  subst hk
  rw [hfirst] at hread
  obtain ⟨st, rfl, hlive, hclus, href, hhit, hvictim⟩ := exists_idle hent.dir hdp
  obtain ⟨off, st1, hrun, -⟩ :=
    hread.run st s _ rfl hlive hclus (.inr href) (hhit name) hvictim
  have hlost := dirlookup_not_found hlive hread.named.1 hread.named.2 hdp (hhit name) hvictim
  have hnot : ∀ out, searchDir st.vol name (st.dirent dp) (st.recycled s) = .ok out →
      out.found = false := by
    intro out hout
    cases searchDir_items (st.recycled s) hname.left htrim hlive rfl hent.kept with
    | hit e r first =>
      rw [hnone] at first
      cases first
    | pass _ fuel' dp' ep' count' hpass enough hvalid same onChain =>
      rw [hout, Nat.zero_add] at hpass
      cases fuel' with
      | zero => cases hpass
      | succ fuel' =>
        rw [searchLoop] at hpass
        cases hnext : enext st.vol dp' ep' (32 * (slotsOf body).length) (some count') with
        | error p =>
          rw [hnext] at hpass
          cases hpass
        | ok r =>
          have hslots := hent.slots
          rw [madeItem, if_neg (by omega)] at hslots
          have hfull : ep.filename ≠ [] := by
            intro hnil
            rw [hnil] at hhead
            cases hhead
          have hlong := length_longSlots ep.filename (calChecksum (generateShortname ep.filename))
            (longCount ep.filename) (longCount ep.filename)
          have hpos := longCount_bounds (List.length_pos_of_ne_nil hfull) hrec.short
          have hret := enext_uncounted (hlive.move same onChain) hvalid
            (List.ne_nil_of_length_pos (by omega)) (by
              rw [hlong]
              exact longRun_longSlots _ _ _ _) (by omega)
            (sne_fields ep.attr (length_generateShortname _) hrec.clus hrec.size).1
            (hrec.order.2.mpr hhead) hslots (by omega) hnext
          rw [hnext] at hpass
          simp only [hret, if_true] at hpass
          cases hpass
          rfl
  have := (hlost hnot).of_ok _ _ hrun
  cases this

/-- Any other entry is read back as it was made. -/
theorem reads_made (hent : Entered v chain i dp1 body dels (madeItem ep (32 * k)) v' chain' dp2)
    (hk : (slotsOf body).length = k) (hmany : 2 ≤ k) (hrec : Recordable ep)
    (hep : ep.filename = name.take fat32MaxFilename) (hhead : ep.filename.head? ≠ some emptyEntry)
    (hname : Visible name (body ++ dels.map .deleted)) (htrim : Trimmed body)
    (hnone : (entriesFrom 0 body).find? (hasName name) = none)
    (hdots : name ≠ [dotCh] ∧ name ≠ [dotCh, dotCh]) (hfirst : d.firstClus = dp2.firstClus) :
    Reads v' d.firstClus dp name ⟨ep.attr, ep.firstClus, ep.fileSize, 32 * k⟩ := by
  subst hk
  have hwhole := hent.whole (madeItem_wf hrec fun _ ↦ hhead) (madeItem_names hrec _ _)
  obtain ⟨longs, short, hitem, hlen, hfilename, hattr, hclus, hsize⟩ :=
    decode_madeItem {} hrec (show 32 < 32 * (slotsOf body).length by omega)
  have hlast : entriesFrom (slotsOf body).length [madeItem ep (32 * (slotsOf body).length)] =
      [(32 * (slotsOf body).length, longs.length + 1, decodeEntry {} longs short)] := by
    rw [hitem]
    rfl
  have hnamed : hasName name (32 * (slotsOf body).length, longs.length + 1,
      decodeEntry {} longs short) = true := by
    unfold hasName sameName
    rw [hfilename, hep, List.take_take, Nat.min_self]
    exact decide_eq_true rfl
  have hfind : (entriesFrom 0 (body ++ madeItem ep (32 * (slotsOf body).length) ::
      (dels.drop (madeItem ep (32 * (slotsOf body).length)).slots.length).map .deleted)).find?
      (hasName name) =
      some (32 * (slotsOf body).length, longs.length + 1, decodeEntry {} longs short) := by
    rw [entriesFrom_made, List.find?_append, hnone, Option.none_or, hlast, List.find?_cons, hnamed]
  have hreads : Reads v' dp2.firstClus dp name _ :=
    reads_first hent.dir hwhole.image hdots (hname.made htrim _ _) hfind
  rw [hfirst]
  rw [foundOf, hattr, hclus, hsize] at hreads
  exact hreads

/-- The entries that were found before are still found. -/
theorem reads_kept (hent : Entered v chain i dp1 body dels (madeItem ep (32 * k)) v' chain' dp2)
    (hk : (slotsOf body).length = k) (hmany : 2 ≤ k) (hrec : Recordable ep)
    (hhead : ep.filename.head? ≠ some emptyEntry) (htrim : Trimmed body) (hl : LiveDir v l d)
    (himg : ImageFrom v l 0 (body ++ dels.map .deleted)) (hdp : dp ≠ .entry s)
    (hfirst : d.firstClus = dp2.firstClus)
    (he : e ∈ entriesFrom 0 (body ++ dels.map .deleted))
    (hread : Reads v d.firstClus dp e.2.2.filename (foundOf e)) :
    Reads v' d.firstClus dp e.2.2.filename (foundOf e) := by
  subst hk
  have hwhole := hent.whole (madeItem_wf hrec fun _ ↦ hhead) (madeItem_names hrec _ _)
  rcases hread.cases hl himg hdp with ⟨hname, e', hfind, hsame⟩ | hne
  · rw [entriesFrom_append_deleted] at hfind
    rw [hfirst, ← hsame]
    apply reads_first hent.dir hwhole.image hread.named (hname.made htrim _ _)
    rw [entriesFrom_made, List.find?_append, hfind, Option.some_or]
  · exact absurd rfl (hne e he)

/-- `ealloc` is called with a name that `formatname` accepts and that is neither cached nor in the
well-formed directory `dp`; there is room for it, and the slot `s` of the cache is free. -/
structure FreshName (st : Store S) (dp : Ent S) (s : S) (i : Nat) (chain : Nat → List Nat)
    (items : List DirItem) (raw name : List UInt8) (kind : NodeKind) : Prop where
  well : Folder.Well ⟨st.vol, st.dirent dp⟩ i chain items
  accepted : formatname raw = some name
  missing : coldSearch st.vol (st.cache.ent dp).firstClus name = .ok none
  uncached : st.cache.hit dp name = none
  room : Room st.vol (chain i) items name kind
  used : dp = .root ∨ 0 < (st.cache.ent dp).ref
  victim : st.cache.victim = some s

/-- What `ealloc` did with such a name. -/
theorem FreshName.made {kind : NodeKind} (h : FreshName st dp s i chain items raw name kind) :
    ∃ st' body dels ep dp1 dp2 chain', items = body ++ dels.map .deleted ∧ Trimmed body ∧
      Visible name items ∧ (entriesFrom 0 body).find? (hasName name) = none ∧
      tailSlot items = (slotsOf body).length ∧
      ealloc dp raw kind.attr st = .ok (some (.entry s), st') ∧ Made (chain' i) dp s ep st st' ∧
      Recordable ep ∧ ep.filename = name.take fat32MaxFilename ∧ ep.attr = eallocAttr kind.attr ∧
      heldBy (st'.cache.ent (.entry s)) =
        ⟨ep.attr, ep.firstClus, ep.fileSize, 32 * (slotsOf body).length⟩ ∧
      (st.dirent dp).firstClus = dp2.firstClus ∧
      Entered st.vol chain i dp1 body dels (madeItem ep (32 * (slotsOf body).length)) st'.vol
        chain' dp2 := by
  have hlive : LiveDir st.vol (chain i) (st.dirent dp) := h.well.live
  obtain ⟨hvisible, hnone⟩ := (coldSearch_none hlive h.well.whole.image).mp h.missing
  have hwhole := h.well.whole
  have hroom := h.room
  obtain ⟨body, dels, rfl, htrim, htail⟩ := exists_trimmed items
  obtain ⟨r, st', hrun, rfl, ep, dp1, dp2, chain', hmade, hrec, hfilename, hattr, hoff, hfirst,
    hent⟩ := ealloc_made kind h.well.wf h.well.reserved hlive hwhole htail h.accepted hnone hvisible
      hroom h.used h.uncached h.victim
  refine ⟨st', body, dels, ep, dp1, dp2, chain', rfl, htrim, hvisible, ?_, htail, hrun, hmade, hrec,
    hfilename, hattr, ?_, hfirst, hent⟩
  · rwa [entriesFrom_append_deleted] at hnone
  · rw [heldBy, hmade.attr, hmade.firstClus, hmade.fileSize, hmade.off, hoff]

/-- A created entry that is found again stands behind the first two slots, and its short name does
not read as a deleted slot. -/
theorem FoundAgain.behind {kind : NodeKind} (hfound : FoundAgain st dp raw kind.attr)
    (h : FreshName st dp s i chain items raw name kind) :
    2 ≤ tailSlot items ∧ name.head? ≠ some emptyEntry := by
  have hdp := used_ne_victim h.used h.victim
  obtain ⟨st', body, dels, ep, dp1, dp2, chain', rfl, htrim, hvisible, hnone, htail, hrun, hmade,
    hrec, hfilename, -, hheld, hfirst, hent⟩ := h.made
  obtain ⟨name', e, st1, hname1, hrun1, hread, -⟩ := hfound
  rw [h.accepted] at hname1
  cases hname1
  rw [hrun] at hrun1
  cases hrun1
  rw [hheld] at hread
  have hbound := h.room.bound
  rw [htail] at hbound ⊢
  have hmany : 2 ≤ (slotsOf body).length := by
    by_contra hfew
    exact not_reads_dots hent rfl (by omega) hrec hnone hdp hfirst rfl hread
  refine ⟨hmany, fun hdel ↦ ?_⟩
  have hhead : ep.filename.head? = some emptyEntry := by
    rw [hfilename, ← hdel]
    cases name <;> rfl
  have hlong : longCount ep.filename ≤ longCount name := by
    rw [hfilename]
    exact longCount_take _ _
  exact not_reads_deleted hent rfl hmany hrec (by omega) hhead hvisible htrim hnone hdp hfirst hread

/-- Such an entry is found again. -/
theorem FreshName.foundAgain {kind : NodeKind} (h : FreshName st dp s i chain items raw name kind)
    (hmany : 2 ≤ tailSlot items) (hdel : name.head? ≠ some emptyEntry) :
    FoundAgain st dp raw kind.attr := by
  have hdp := used_ne_victim h.used h.victim
  have hdots := formatname_ne_dots h.accepted
  have hlive : LiveDir st.vol (chain i) (st.dirent dp) := h.well.live
  have himg := h.well.whole.image
  obtain ⟨st', body, dels, ep, dp1, dp2, chain', rfl, htrim, hvisible, hnone, htail, hrun, hmade,
    hrec, hfilename, -, hheld, hfirst, hent⟩ := h.made
  rw [htail] at hmany
  have hhead : ep.filename.head? ≠ some emptyEntry := by
    rw [hfilename]
    cases name with
    | nil => exact hdel
    | cons c t => exact hdel
  refine ⟨name, .entry s, st', h.accepted, hrun, ?_, ?_⟩
  · rw [hheld]
    exact reads_made hent rfl hmany hrec hfilename hhead hvisible htrim hnone hdots hfirst
  · intro es hes x hx hread
    rw [listing_image hlive himg] at hes
    cases hes
    exact reads_kept hent rfl hmany hrec hhead htrim hlive himg hdp hfirst hx hread

/-- A created entry is read back from the disk, with the others, exactly if it was not written to
the first two slots, as `.` or `..`, and its short name does not read as a deleted slot. -/
theorem foundAgain_iff {kind : NodeKind} (h : FreshName st dp s i chain items raw name kind) :
    FoundAgain st dp raw kind.attr ↔ 2 ≤ tailSlot items ∧ name.head? ≠ some emptyEntry :=
  ⟨fun hfound ↦ hfound.behind h, fun hplace ↦ h.foundAgain hplace.1 hplace.2⟩

private theorem smallDir_freshName : FreshName (Store.boot 2 smallDir) .root 0 0
    (fun i ↦ if i = 0 then [2] else []) smallItems [0x63] [0x63] (.file false) where
  well := smallFolder_well
  accepted := by decide
  missing := (coldSearch_none boot_live smallDir_image).mpr
    ⟨visible_of_ne (by decide) _, by decide +kernel⟩
  uncached := by decide
  room := ⟨by decide, by
    have : clustersFor smallGeom (32 * (tailSlot smallItems + (longCount [0x63] + 1))) = 1 := by
      decide
    change 0 + (clustersFor smallGeom _ - 1) ≤ _
    rw [this]
    exact Nat.zero_le _⟩
  used := .inl rfl
  victim := by decide

/-- The file `c`, created behind the files of the small directory. -/
theorem foundAgain_iff_small : FoundAgain (Store.boot 2 smallDir) .root [0x63]
    (NodeKind.file false).attr :=
  (foundAgain_iff smallDir_freshName).mpr ⟨by decide, by decide⟩

private theorem emptyDir_whole : WholeDir smallVolume [2] [] where
  image := ⟨nofun, fun j hj ↦ absurd hj (Nat.not_lt_zero j), .inr (by decide +kernel), by decide⟩
  marks k _ hin := by
    have hcap : [2].length * smallVolume.geom.bytsPerClus = 512 := rfl
    have hmarks : ∀ j < 16, fileByte smallVolume [2] (32 * j) = endOfEntry := by decide +kernel
    exact hmarks k (by omega)
  names := nofun

private theorem emptyDir_live : LiveDir smallVolume [2] ((Store.boot 2 smallVolume).dirent .root) :=
  ⟨⟨⟨by decide, by decide⟩, by decide⟩, by decide, ⟨rfl, fun _ ↦ rfl⟩, by decide, by decide, rfl⟩

/-- The file `ab`, created in an empty root directory, is written as the entry `.`. -/
theorem not_foundAgain_empty : WholeDir smallVolume [2] [] ∧
    formatname [0x61, 0x62] = some [0x61, 0x62] ∧
    coldSearch smallVolume 2 [0x61, 0x62] = .ok none ∧
    (∃ e st', ealloc .root [0x61, 0x62] (NodeKind.file false).attr (Store.boot 2 smallVolume) =
      .ok (some e, st')) ∧
    ¬ FoundAgain (Store.boot 2 smallVolume) .root [0x61, 0x62] (NodeKind.file false).attr := by
  have hmissing : coldSearch smallVolume 2 [0x61, 0x62] = .ok none :=
    (coldSearch_none emptyDir_live emptyDir_whole.image).mpr
      ⟨visible_of_ne (by decide) _, by decide +kernel⟩
  have hfresh : FreshName (Store.boot 2 smallVolume) .root 0 0 (fun i ↦ if i = 0 then [2] else [])
      [] [0x61, 0x62] [0x61, 0x62] (.file false) := by
    refine ⟨⟨smallFs_integrity.table, by decide, emptyDir_live, emptyDir_whole⟩, by decide,
      hmissing,
      by decide, ⟨by decide, ?_⟩, .inl rfl, by decide⟩
    have : clustersFor smallGeom (32 * (tailSlot [] + (longCount [0x61, 0x62] + 1))) = 1 := by
      decide
    change 0 + (clustersFor smallGeom _ - 1) ≤ _
    rw [this]
    exact Nat.zero_le _
  obtain ⟨st', -, -, -, -, -, -, -, -, -, -, -, hrun, -⟩ := hfresh.made
  refine ⟨emptyDir_whole, by decide, hmissing, ⟨_, st', hrun⟩, fun hfound ↦ ?_⟩
  exact absurd (FoundAgain.behind hfound hfresh).1 (by decide)

end Xv6K210.Mount
