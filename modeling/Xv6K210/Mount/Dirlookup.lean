import Mathlib.Data.List.Find
import Xv6K210.Ecache.Identity
import Xv6K210.Fs.DirGrow
import Xv6K210.Mount.Listing

/-!
# `dirlookup` of an entry that is not cached

Source `kernel/fs/fat32.c:826–878`. Of a well-formed directory it fills a slot of
the cache with the first entry that has the name, or gives the slot back and leaves the start of
the deleted slots at the end of the directory in `*poff`.
-/

namespace Xv6K210.Mount

open Xv6K210.Base Xv6K210.Ecache Xv6K210.Fs Prog Function

variable {S α : Type} {st : Store S}

/-! ### Routines of the parts -/

/-- A routine on the cache returns. -/
theorem returns_lift {x : Cached S α} {post : α → Store S → Prop}
    (h : Returns x st.cache fun a c ↦ post a { st with cache := c }) :
    Returns (lift x) st post := by
  obtain ⟨a, c, hx, hpost⟩ := h
  refine ⟨a, { st with cache := c }, ?_, hpost⟩
  unfold lift
  rw [hx]

/-- A routine on the volume returns. -/
theorem returns_ofVolume {x : Except Fs.Panic α} {a : α} {post : α → Store S → Prop}
    (hx : x = .ok a) (h : post a st) : Returns (ofVolume x) st post := by
  subst hx
  exact returns_pure.mpr h

variable [DecidableEq S]

private theorem returns_setEnt {c : Cache S} {e : Ent S} {f : Ecache.Dirent S → Ecache.Dirent S}
    {post : Unit → Cache S → Prop} :
    Returns (setEnt e f) c post ↔
      post () { c with ent := update c.ent e (f (c.ent e)) } := by
  unfold setEnt
  exact returns_modify

/-- `eget` of an entry that is not cached, with a slot that is not in use. -/
theorem eget_free {c : Cache S} {p : Ent S} {name : List UInt8} {s : S} (hhit : c.hit p name = none)
    (hvictim : c.victim = some s) {post : S → Cache S → Prop}
    (h : post s { c with
      ent := update c.ent (.entry s)
        { c.ent (.entry s) with ref := 1, off := 0, valid := 0, dirty := false } }) :
    Returns (eget p name) c post := by
  unfold eget
  rw [returns_bind, returns_get, hhit]
  dsimp only
  rw [hvictim]
  dsimp only
  rw [returns_bind, returns_setEnt, returns_pure]
  exact h

/-- `eput` of a slot that is not filled takes its reference away. -/
theorem eput_unfilled {s : S} (hv : (st.cache.ent (.entry s)).valid = 0)
    {post : Unit → Store S → Prop}
    (h : post () { st with cache := { st.cache with
      ent := update st.cache.ent (.entry s)
        { st.cache.ent (.entry s) with ref := (st.cache.ent (.entry s)).ref - 1 } } }) :
    Returns (eput (.entry s)) st post := by
  unfold eput
  rw [returns_bind, returns_get, eputLoop, returns_bind, returns_get]
  dsimp only
  rw [if_neg (by simp [hv])]
  apply returns_lift
  rw [returns_setEnt]
  exact h

/-- A slot is filled with an entry of another directory. -/
theorem fill_returns (c : Cache S) {s : S} {dp : Ent S} (hdp : dp ≠ .entry s) (name : List UInt8)
    (x : Found) :
    Returns (Ecache.fill s dp name x) c fun _ c' ↦ c'.order = c.order ∧
      (∀ e, e ≠ .entry s → e ≠ dp → c'.ent e = c.ent e) ∧
      c'.ent dp = { c.ent dp with ref := (c.ent dp).ref + 1 } ∧
      c'.ent (.entry s) = { c.ent (.entry s) with
        filename := name, attr := x.attr, firstClus := x.firstClus,
        fileSize := x.fileSize, off := x.off, dirty := false, valid := 1, parent := some dp,
        born := c.fills, home := (c.ent dp).born } := by
  unfold Ecache.fill edup
  rw [returns_bind, returns_setEnt, returns_modify]
  dsimp only
  refine ⟨rfl, fun e he hedp ↦ ?_, ?_, ?_⟩
  · rw [update_of_ne he, update_of_ne hedp]
  · rw [update_of_ne hdp, update_self]
  · rw [update_self, update_self, update_of_ne hdp.symm]

/-! ### The search -/

/-- What a search of the directory `dp`, with the chain `l`, into the slot `s` leaves alone. -/
structure Looked (l : List Nat) (dp : Ent S) (s : S) (st st' : Store S) : Prop where
  vol : st'.vol = st.vol
  order : st'.cache.order = st.cache.order
  ent : ∀ e, e ≠ .entry s → e ≠ dp → st'.cache.ent e = st.cache.ent e
  cursor : ∀ e, e ≠ .entry s → e ≠ dp → st'.cursor e = st.cursor e
  dir : LiveDir st.vol l (st'.dirent dp)

/-- The slot `s` holds what the search `out` of the directory `dp` ended at. -/
structure Taken (dp : Ent S) (s : S) (out : SearchOut) (st st' : Store S) : Prop where
  dir : st'.cache.ent dp = { st.cache.ent dp with ref := (st.cache.ent dp).ref + 1 }
  ref : (st'.cache.ent (.entry s)).ref = 1
  valid : (st'.cache.ent (.entry s)).valid = 1
  dirty : (st'.cache.ent (.entry s)).dirty = false
  parent : (st'.cache.ent (.entry s)).parent = some dp
  filename : (st'.cache.ent (.entry s)).filename = out.ep.filename
  off : (st'.cache.ent (.entry s)).off = out.off
  attr : (st'.cache.ent (.entry s)).attr = out.ep.attr
  firstClus : (st'.cache.ent (.entry s)).firstClus = out.ep.firstClus
  fileSize : (st'.cache.ent (.entry s)).fileSize = out.ep.fileSize

/-- The slot `s` holds the entry `e` of the directory `dp`. -/
structure Holds (dp : Ent S) (s : S) (name : List UInt8) (e : Nat × Nat × Fs.Dirent)
    (st st' : Store S) : Prop where
  dir : st'.cache.ent dp = { st.cache.ent dp with ref := (st.cache.ent dp).ref + 1 }
  ref : (st'.cache.ent (.entry s)).ref = 1
  valid : (st'.cache.ent (.entry s)).valid = 1
  dirty : (st'.cache.ent (.entry s)).dirty = false
  parent : (st'.cache.ent (.entry s)).parent = some dp
  filename : (st'.cache.ent (.entry s)).filename = e.2.2.filename
  named : sameName name e.2.2.filename = true
  off : (st'.cache.ent (.entry s)).off = e.1
  attr : (st'.cache.ent (.entry s)).attr = e.2.2.attr
  firstClus : (st'.cache.ent (.entry s)).firstClus = e.2.2.firstClus
  fileSize : (st'.cache.ent (.entry s)).fileSize = e.2.2.fileSize

/-- The slot `s` is not in use. -/
structure Unused (dp : Ent S) (s : S) (st st' : Store S) : Prop where
  dir : st'.cache.ent dp = st.cache.ent dp
  ref : (st'.cache.ent (.entry s)).ref = 0
  valid : (st'.cache.ent (.entry s)).valid = 0

/-- The outcome of `dirlookup` for a search that ended with `out`. -/
inductive Ended (dp : Ent S) (s : S) (out : SearchOut) (st : Store S)
    (r : Option (Ent S) × Nat) (st' : Store S) : Prop where
  | found (found : out.found = true) (result : r = (some (.entry s), 0))
      (taken : Taken dp s out st st')
  | missing (found : out.found = false) (result : r = (none, out.off)) (unused : Unused dp s st st')

/-- The outcome of `dirlookup` in a directory with the items `items`. -/
inductive Outcome (dp : Ent S) (s : S) (name : List UInt8) (items : List DirItem) (st : Store S)
    (r : Option (Ent S) × Nat) (st' : Store S) : Prop where
  | found (e : Nat × Nat × Fs.Dirent)
      (first : (entriesFrom 0 items).find? (hasName name) = some e)
      (result : r.1 = some (.entry s)) (holds : Holds dp s name e st st')
  | missing (none : (entriesFrom 0 items).find? (hasName name) = none)
      (result : r = (.none, 32 * tailSlot items)) (unused : Unused dp s st st')

/-- A short name is no other name. -/
theorem sameName_short {name other : List UInt8} (h : other.length < fat32MaxFilename)
    (hne : name ≠ other) : sameName name other = false := by
  unfold sameName
  rw [decide_eq_false_iff_not, List.take_of_length_le (Nat.le_of_lt h)]
  intro heq
  have hlen := congrArg List.length heq
  rw [List.length_take] at hlen
  rw [List.take_of_length_le (by omega)] at heq
  exact hne heq

variable {dp : Ent S} {name : List UInt8} {items : List DirItem} {l : List Nat} {s : S}

/-- The part of `dirlookup` behind a miss. -/
theorem searchMiss_returns {out : SearchOut} (h : LiveDir st.vol l (st.dirent dp))
    (hsearch : searchDir st.vol name (st.dirent dp) (st.dirent (.entry s)) = .ok out)
    (hsame : SameEntry (st.dirent dp) out.dp) (honChain : OnChain out.dp l)
    (hvalid : out.ep.valid = 0) (hdp : dp ≠ .entry s)
    (href : (st.cache.ent (.entry s)).ref = 1) :
    Returns (searchMiss dp s name) st fun r st' ↦ Looked l dp s st st' ∧
      Ended dp s out st r st' := by
  unfold searchMiss
  rw [returns_bind, returns_get, returns_bind]
  apply returns_ofVolume hsearch
  rw [returns_bind]
  unfold setDirent
  rw [returns_modify, returns_bind, returns_modify]
  -- the directory has its cursor, and the slot what `enext` left in it
  have hdir : ({ st.cache.ent dp with
      filename := out.dp.filename, attr := out.dp.attr, firstClus := out.dp.firstClus,
      fileSize := out.dp.fileSize, dirty := out.dp.dirty, valid := out.dp.valid } :
      Ecache.Dirent S) = st.cache.ent dp := by
    rw [hsame]
    rfl
  rw [hdir, update_eq_self]
  dsimp only
  set x : Ecache.Dirent S := { st.cache.ent (.entry s) with
    filename := out.ep.filename, attr := out.ep.attr, firstClus := out.ep.firstClus,
    fileSize := out.ep.fileSize, dirty := out.ep.dirty, valid := out.ep.valid } with hx
  set st1 : Store S := { st with
    cache := { st.cache with ent := update st.cache.ent (.entry s) x }
    cursor := update (update st.cursor dp (out.dp.curClus, out.dp.clusCnt))
      (.entry s) (out.ep.curClus, out.ep.clusCnt) } with hst1
  have hself : st1.cache.ent (.entry s) = x := update_self _ _ _
  have hother : ∀ e, e ≠ .entry s → st1.cache.ent e = st.cache.ent e :=
    fun e he ↦ update_of_ne he _ _
  have hcursor : ∀ e, e ≠ .entry s → e ≠ dp → st1.cursor e = st.cursor e := by
    intro e he hedp
    rw [hst1]
    dsimp only
    rw [update_of_ne he, update_of_ne hedp]
  have hdirent : ∀ st' : Store S, (∃ n, st'.cache.ent dp = { st.cache.ent dp with ref := n }) →
      st'.cursor = st1.cursor → LiveDir st.vol l (st'.dirent dp) := by
    rintro st' ⟨n, hn⟩ hc
    have hcur : st'.cursor dp = (out.dp.curClus, out.dp.clusCnt) := by
      rw [hc, hst1]
      dsimp only
      rw [update_of_ne hdp, update_self]
    have hmove := h.move hsame honChain
    have hrd : st'.dirent dp = { out.dp with ref := n } := by
      rw [hsame]
      unfold Store.dirent
      rw [hn, hcur]
    rw [hrd]
    exact ⟨h.chain, h.nodup, ⟨hmove.onChain.head, hmove.onChain.cursor⟩, hmove.firstClus,
      hmove.isDir, hmove.valid⟩
  have hdp1 : st1.cache.ent dp = st.cache.ent dp := hother dp hdp
  by_cases hfound : out.found = true
  · rw [if_pos hfound, returns_bind]
    apply returns_lift
    apply (fill_returns st1.cache hdp out.ep.filename
      ⟨out.ep.attr, out.ep.firstClus, out.ep.fileSize, out.off⟩).mono
    rintro _ c2 ⟨horder, hrest, hdp2, hs2⟩
    rw [returns_pure]
    rw [hdp1] at hdp2
    refine ⟨⟨rfl, horder, fun e he hedp ↦ ?_, hcursor, hdirent _ ⟨_, hdp2⟩ rfl⟩,
      .found hfound rfl ⟨hdp2, ?_, ?_, ?_, ?_, ?_, ?_, ?_, ?_, ?_⟩⟩
    · exact (hrest e he hedp).trans (hother e he)
    all_goals rw [hs2]
    rw [hself]
    exact href
  · rw [if_neg hfound, returns_bind]
    apply eput_unfilled
    · rw [hself]
      exact hvalid
    · rw [returns_pure]
      dsimp only
      refine ⟨⟨rfl, rfl, fun e he hedp ↦ ?_, hcursor, hdirent _ ⟨(st.cache.ent dp).ref, ?_⟩ rfl⟩,
        .missing (Bool.eq_false_iff.mpr hfound) rfl ⟨?_, ?_, ?_⟩⟩
      · dsimp only
        rw [update_of_ne he]
        exact hother e he
      · dsimp only
        rw [update_of_ne hdp, hdp1]
      · dsimp only
        rw [update_of_ne hdp, hdp1]
      · dsimp only
        rw [update_self, hself, hx]
        dsimp only
        rw [href]
      · dsimp only
        rw [update_self, hself, hx]
        exact hvalid

/-- `dirlookup` of a name that is no dot entry. -/
theorem dirlookup_named (h : LiveDir st.vol l (st.dirent dp)) (hdot : name ≠ [dotCh])
    (hdots : name ≠ [dotCh, dotCh]) :
    dirlookup dp name st = (do
      let s ← lift (eget dp name)
      let st ← get
      if (st.cache.ent (.entry s)).valid = 1 then
        pure (some (Ent.entry s), 0)
      else
        searchMiss dp s name) st := by
  have hisDir : (st.cache.ent dp).isDir = true := decide_eq_true h.isDir
  have hvalid : (st.cache.ent dp).valid = 1 := h.valid
  have hne := sameName_short (show [dotCh].length < _ by decide) hdot
  have hnes := sameName_short (show [dotCh, dotCh].length < _ by decide) hdots
  unfold dirlookup
  change (if (st.cache.ent dp).isDir = false then _ else _ : Mounted S (Option (Ent S) × Nat)) st =
    _
  rw [if_neg (by simp [hisDir]), if_neg (by simp [hne]), if_neg (by simp [hnes]),
    if_neg (not_not.mpr hvalid)]

omit [DecidableEq S] in
/-- A directory that is in use is no slot that `eget` recycles. -/
theorem used_ne_victim (hused : dp = .root ∨ 0 < (st.cache.ent dp).ref)
    (hvictim : st.cache.victim = some s) : dp ≠ .entry s := by
  have hfree : (st.cache.ent (.entry s)).ref = 0 :=
    of_decide_eq_true (lastWith_some hvictim).2
  rintro rfl
  rcases hused with hroot | hpos
  · cases hroot
  · omega

/-- The slot that `eget` recycles. -/
def Store.recycled (st : Store S) (s : S) : Fs.Dirent :=
  { st.dirent (.entry s) with ref := 1, off := 0, valid := 0, dirty := false }

/-- `dirlookup` of a name that is not cached, with a slot that is not in use, for a search of any
outcome. -/
theorem dirlookup_returns {out : SearchOut} (h : LiveDir st.vol l (st.dirent dp))
    (hsearch : searchDir st.vol name (st.dirent dp) (st.recycled s) = .ok out)
    (hsame : SameEntry (st.dirent dp) out.dp) (honChain : OnChain out.dp l)
    (hvalid : out.ep.valid = 0) (hdot : name ≠ [dotCh]) (hdots : name ≠ [dotCh, dotCh])
    (hused : dp = .root ∨ 0 < (st.cache.ent dp).ref) (hhit : st.cache.hit dp name = none)
    (hvictim : st.cache.victim = some s) :
    Returns (dirlookup dp name) st fun r st' ↦ Looked l dp s st st' ∧ Ended dp s out st r st' := by
  have hdp := used_ne_victim hused hvictim
  unfold Returns
  rw [dirlookup_named h hdot hdots]
  change Returns _ st _
  rw [returns_bind]
  apply returns_lift
  apply eget_free hhit hvictim
  rw [returns_bind, returns_get]
  set st1 : Store S := { st with
    cache := { st.cache with
      ent := update st.cache.ent (.entry s)
        { st.cache.ent (.entry s) with ref := 1, off := 0, valid := 0, dirty := false } } } with
          hst1
  have hself : st1.cache.ent (.entry s) =
      { st.cache.ent (.entry s) with ref := 1, off := 0, valid := 0, dirty := false } :=
    update_self _ _ _
  have hother : ∀ e, e ≠ .entry s → st1.cache.ent e = st.cache.ent e :=
    fun e he ↦ update_of_ne he _ _
  have hdirent : st1.dirent dp = st.dirent dp := by
    unfold Store.dirent
    rw [hother dp hdp]
  have hslot : st1.dirent (.entry s) = st.recycled s := by
    unfold Store.recycled Store.dirent
    rw [hself]
    rfl
  rw [if_neg (by simp [hself])]
  have h1 : LiveDir st1.vol l (st1.dirent dp) := by
    rw [hdirent]
    exact h
  rw [← hdirent, ← hslot] at hsearch
  rw [← hdirent] at hsame
  apply (searchMiss_returns h1 hsearch hsame honChain hvalid hdp (by rw [hself])).mono
  rintro r st2 ⟨hlooked, hout⟩
  refine ⟨⟨hlooked.vol, hlooked.order, fun e he hedp ↦ ?_, hlooked.cursor, hlooked.dir⟩, ?_⟩
  · rw [hlooked.ent e he hedp]
    exact hother e he
  · cases hout with
    | found found result taken =>
      refine .found found result { taken with dir := ?_ }
      rw [taken.dir, hother dp hdp]
    | missing found result unused =>
      refine .missing found result { unused with dir := ?_ }
      rw [unused.dir, hother dp hdp]

/-- `dirlookup` of a name that is not cached, with a slot that is not in use. -/
theorem dirlookup_disk (h : LiveDir st.vol l (st.dirent dp)) (himg : ImageFrom st.vol l 0 items)
    (hname : Visible name items) (hdot : name ≠ [dotCh]) (hdots : name ≠ [dotCh, dotCh])
    (hused : dp = .root ∨ 0 < (st.cache.ent dp).ref) (hhit : st.cache.hit dp name = none)
    (hvictim : st.cache.victim = some s) :
    Returns (dirlookup dp name) st fun r st' ↦ Looked l dp s st st' ∧
      Outcome dp s name items st r st' := by
  have hrecycled : (st.recycled s).valid = 0 := rfl
  obtain ⟨out, hsearch, hs⟩ := searchDir_image hname h hrecycled himg
  apply (dirlookup_returns h hsearch hs.same hs.onChain hs.valid hdot hdots hused hhit hvictim).mono
  rintro r st' ⟨hlooked, hended⟩
  refine ⟨hlooked, ?_⟩
  cases hfind : (entriesFrom 0 items).find? (hasName name) with
  | some e =>
    have his := hs.hit e hfind
    cases hended with
    | found found result taken =>
      refine .found e hfind (by rw [result]) ⟨taken.dir, taken.ref, taken.valid, taken.dirty,
        taken.parent, taken.filename.trans his.filename, List.find?_some (p := hasName name) hfind,
        taken.off.trans his.off, taken.attr.trans his.attr, taken.firstClus.trans his.firstClus,
        taken.fileSize.trans his.fileSize⟩
    | missing found =>
      rw [his.found] at found
      cases found
  | none =>
    have hmiss := hs.miss hfind
    cases hended with
    | found found =>
      rw [hmiss.1] at found
      cases found
    | missing found result unused => exact .missing hfind (by rw [result, hmiss.2]) unused

/-! ### Well-formed directories -/

/-- No entry of the directory stands in the slot at an offset. -/
def FreeSlot (v : Volume) (l : List Nat) (off : Nat) : Prop :=
  l.length * v.geom.bytsPerClus ≤ off ∨ fileByte v l off = emptyEntry ∨
    fileByte v l off = endOfEntry

/-- Names that are not longer than a name may be. -/
theorem hasName_eq {v : Volume} (h : WholeDir v l items) (name : List UInt8) :
    (entriesFrom 0 items).find? (hasName name) =
      (entriesFrom 0 items).find? fun e ↦ e.2.2.filename = name.take fat32MaxFilename := by
  refine List.find?_congr fun e he ↦ ?_
  unfold hasName sameName
  rw [List.take_of_length_le (h.names e he)]
  exact decide_eq_decide.mpr eq_comm

/-- Behind the last entry every slot is free. -/
theorem wholeDir_free {v : Volume} (h : WholeDir v l items) {k : Nat} (hk : tailSlot items ≤ k) :
    FreeSlot v l (32 * k) := by
  obtain ⟨body, dels, rfl, htrim, htail⟩ := exists_trimmed items
  by_cases hin : 32 * k < l.length * v.geom.bytsPerClus
  · right
    by_cases hdel : k < (slotsOf (body ++ dels.map .deleted)).length
    · left
      have hrest := h.image.drop
      rw [Nat.zero_add, ← htail] at hrest
      have hslots : slotsOf (dels.map .deleted) = dels := by
        have := slotsOf_deleted_append dels []
        rwa [List.append_nil, show slotsOf [] = [] from rfl, List.append_nil] at this
      have hlen : k - tailSlot (body ++ dels.map .deleted) < dels.length := by
        rw [slotsOf_append, List.length_append, hslots, ← htail] at hdel
        omega
      have hb := h.image.bound
      have hslot := (hrest.slots (k - tailSlot (body ++ dels.map .deleted)) (by rwa [hslots])).2
      rw [slotOff_mul (by omega), Nat.add_sub_cancel' hk] at hslot
      simp only [hslots] at hslot
      have hwf := hrest.wf (.deleted _) (List.mem_map_of_mem (List.getElem_mem hlen))
      rw [← dirSlot_first, hslot]
      exact hwf.2
    · right
      exact h.marks k (by omega) hin
  · exact .inl (by omega)

/-- A search of the disk needs a slot of the cache, or the code panics. -/
def EgetMisses (dp : Ent S) (name : List UInt8) (st : Store S) (post : S → Prop) : Prop :=
  match st.cache.victim with
  | none => dirlookup dp name st = .error "eget: insufficient ecache"
  | some s => post s

/-- A name that is not cached is searched for on the disk: the first entry with the name is
returned, or the slots from the offset on are free. If every slot of the cache is in use, the code
panics. -/
theorem dirlookup_first (h : LiveDir st.vol l (st.dirent dp)) (hdir : WholeDir st.vol l items)
    (hname : name ≠ []) (hdot : name ≠ [dotCh]) (hdots : name ≠ [dotCh, dotCh])
    (hused : dp = .root ∨ 0 < (st.cache.ent dp).ref) (hhit : st.cache.hit dp name = none) :
    match st.cache.victim with
    | none => dirlookup dp name st = .error "eget: insufficient ecache"
    | some s => ∃ r off st', dirlookup dp name st = .ok ((r, off), st') ∧ st'.vol = st.vol ∧
      match (entriesFrom 0 items).find? fun e ↦ e.2.2.filename = name.take fat32MaxFilename with
      | some (off', _, d) => r = some (.entry s) ∧
        (st'.cache.ent (.entry s)).off = off' ∧ (st'.cache.ent (.entry s)).attr = d.attr ∧
        (st'.cache.ent (.entry s)).firstClus = d.firstClus ∧
        (st'.cache.ent (.entry s)).fileSize = d.fileSize
      | none => r = none ∧ off % 32 = 0 ∧
        ∀ j < longCount name + 1, FreeSlot st.vol l (off + 32 * j) := by
  change EgetMisses dp name st _
  unfold EgetMisses
  cases hvictim : st.cache.victim with
  | none =>
    have heget : eget dp name st.cache = .error "eget: insufficient ecache" := by
      have hget : ∀ f : Cache S → Cached S S, (get >>= f) st.cache = f st.cache st.cache :=
        fun _ ↦ rfl
      unfold eget
      rw [hget, hhit]
      dsimp only
      rw [hvictim]
      rfl
    have hlift : lift (eget dp name) st = .error "eget: insufficient ecache" := by
      unfold lift
      rw [heget]
    rw [dirlookup_named h hdot hdots]
    change (lift (eget dp name) st >>= _) = _
    rw [hlift]
    rfl
  | some s =>
    obtain ⟨⟨r, off⟩, st', hrun, hlooked, hout⟩ :=
      dirlookup_disk h hdir.image (visible_of_ne hname _) hdot hdots hused hhit hvictim
    refine ⟨r, off, st', hrun, hlooked.vol, ?_⟩
    rw [← hasName_eq hdir]
    cases hout with
    | found e first result holds =>
      rw [first]
      exact ⟨result, holds.off, holds.attr, holds.firstClus, holds.fileSize⟩
    | missing none result unused =>
      rw [none]
      obtain ⟨rfl, rfl⟩ := Prod.mk.inj result
      refine ⟨rfl, Nat.mul_mod_right _ _, fun j _ ↦ ?_⟩
      rw [← Nat.mul_add]
      exact wholeDir_free hdir (by omega)

/-- `fat32_init`: the root is cached, and nothing else. -/
def Store.boot (n : Nat) (v : Volume) : Store (Fin n) where
  cache := (Users.boot n v.geom.rootClus).cache
  cursor e := if e = .root then (v.geom.rootClus, 0) else (0, 0)
  vol := v

/-- The root of the small volume is whole. -/
theorem smallDir_whole : WholeDir smallDir [2] smallItems where
  image := smallDir_image
  marks k hk hin := by
    have hlen : (slotsOf smallItems).length = 4 := rfl
    have hcap : [2].length * smallDir.geom.bytsPerClus = 512 := rfl
    have hmarks : ∀ j < 12, fileByte smallDir [2] (32 * (4 + j)) = endOfEntry := by decide +kernel
    have := hmarks (k - 4) (by omega)
    rwa [show 4 + (k - 4) = k by omega] at this
  names := by decide +kernel

/-- The root is live after the boot. -/
theorem boot_live : LiveDir smallDir [2] ((Store.boot 2 smallDir).dirent .root) :=
  ⟨smallDir_live.chain, smallDir_live.nodup, ⟨rfl, fun _ ↦ rfl⟩, by decide, by decide, rfl⟩

/-- The entry `ab` is found in the first slot. -/
theorem dirlookup_first_ab : ∃ off st',
    dirlookup .root [0x61, 0x62] (Store.boot 2 smallDir) = .ok ((some (.entry 0), off), st') ∧
      st'.vol = smallDir ∧ (st'.cache.ent (.entry 0)).off = 0 ∧
      (st'.cache.ent (.entry 0)).attr = attrArchive := by
  have hhit : (Store.boot 2 smallDir).cache.hit .root [0x61, 0x62] = none := by decide
  have h := dirlookup_first boot_live smallDir_whole (by decide) (by decide) (by decide) (.inl rfl)
    hhit
  have hvictim : (Store.boot 2 smallDir).cache.victim = some 0 := by decide
  have hfirst : ((entriesFrom 0 smallItems).find? fun e ↦
      e.2.2.filename = [0x61, 0x62].take fat32MaxFilename) =
      some (0, 2, decodeEntry {} [abLong] (emptyShort [0x41, 0x42])) := by decide +kernel
  rw [hvictim] at h
  obtain ⟨r, off, st', hrun, hvol, hout⟩ := h
  rw [hfirst] at hout
  obtain ⟨rfl, hoff, hattr, -⟩ := hout
  exact ⟨off, st', hrun, hvol, hoff, hattr⟩

end Xv6K210.Mount
