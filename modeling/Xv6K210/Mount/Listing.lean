import Xv6K210.Base.Returns
import Xv6K210.Fs.DirFrame
import Xv6K210.Mount.Lookup

/-!
# Searching a well-formed directory

Source `kernel/fs/fat32.c:784–878`. On a well-formed directory the loop of
`dirlookup` steps from item to item. It ends at the first entry with the name, or behind the last
entry of the directory, at the start of the deleted slots that stand there.
-/

namespace Xv6K210.Mount

open Xv6K210.Base Xv6K210.Fs

/-! ### The end of the entries -/

/-- The item is a deleted slot. -/
def isDeleted : DirItem → Bool
  | .deleted _ => true
  | .live _ _ => false

/-- The number of slots up to the last entry. -/
def tailSlot : List DirItem → Nat
  | [] => 0
  | it :: items =>
    if (it :: items).all isDeleted then 0 else it.slots.length + tailSlot items

/-! ### The loop -/

/-- Reading long-name slots keeps the name equal. -/
theorem SameName.readLongs {longs : List (List UInt8)} {buf buf' : ByteMem}
    (h : SameName buf buf') : SameName (readLongs longs buf) (readLongs longs buf') := by
  induction longs generalizing buf buf' with
  | nil => exact h
  | cons de des ih => exact ih (h.readLongName _ _)

/-- The name of an entry does not depend on the slot of the cache that it is read into. -/
theorem decodeEntry_filename (ep : Fs.Dirent) (longs : List (List UInt8)) (short : List UInt8) :
    (decodeEntry ep longs short).filename = (decodeEntry {} longs short).filename := by
  have hbuf : SameName (fun x ↦ if x = 256 then ({} : Fs.Dirent).attr else 0)
      (fun x ↦ if x = 256 then ep.attr else 0) := by
    intro x hx
    simp only [if_neg hx]
  unfold decodeEntry fillEntry
  dsimp only
  split_ifs
  · exact (hbuf.readShortName short).nameOf
  · exact hbuf.readLongs.nameOf

/-- The comparison of a name with that of an entry of the directory. -/
def hasName (name : List UInt8) (e : Nat × Nat × Fs.Dirent) : Bool :=
  Ecache.sameName name e.2.2.filename

/-- The loop ended at the entry `e` of the directory. -/
structure Hit (r : SearchOut) (e : Nat × Nat × Fs.Dirent) : Prop where
  found : r.found = true
  off : r.off = e.1
  filename : r.ep.filename = e.2.2.filename
  attr : r.ep.attr = e.2.2.attr
  firstClus : r.ep.firstClus = e.2.2.firstClus
  fileSize : r.ep.fileSize = e.2.2.fileSize

/-- A deleted slot stands in front of an entry. -/
def Gap (items : List DirItem) : Prop :=
  ∃ pre de longs short post, items = pre ++ DirItem.deleted de :: DirItem.live longs short :: post

/-- Nothing behind the last entry is a deleted slot. -/
def Trimmed (items : List DirItem) : Prop := ∀ pre de, items ≠ pre ++ [DirItem.deleted de]

/-- The end of a trimmed image is trimmed. -/
theorem Trimmed.of_append {pre items : List DirItem} (h : Trimmed (pre ++ items)) :
    Trimmed items := by
  rintro pre' de rfl
  exact h (pre ++ pre') de (List.append_assoc _ _ _).symm

/-- A list of items is cut behind its last entry. -/
theorem exists_trimmed : ∀ items : List DirItem, ∃ (body : List DirItem) (dels : List (List UInt8)),
    items = body ++ dels.map .deleted ∧ Trimmed body ∧ tailSlot items = (slotsOf body).length
  | [] => ⟨[], [], rfl, by simp [Trimmed], rfl⟩
  | it :: items => by
    obtain ⟨body, dels, heq, htrim, hlen⟩ := exists_trimmed items
    rw [tailSlot]
    by_cases hall : (it :: items).all isDeleted = true
    · rw [if_pos hall]
      have hdels : ∀ its : List DirItem, its.all isDeleted = true →
          ∃ dels : List (List UInt8), its = dels.map .deleted := by
        intro its
        induction its with
        | nil => exact fun _ ↦ ⟨[], rfl⟩
        | cons it its ih =>
          intro h
          rw [List.all_cons, Bool.and_eq_true] at h
          obtain ⟨dels, rfl⟩ := ih h.2
          cases it with
          | deleted de => exact ⟨de :: dels, rfl⟩
          | live longs short => cases h.1
      obtain ⟨dels', hdels'⟩ := hdels _ hall
      exact ⟨[], dels', hdels', by simp [Trimmed], rfl⟩
    · rw [if_neg hall]
      refine ⟨it :: body, dels, by rw [heq]; rfl, ?_, ?_⟩
      · intro pre de hpre
        cases pre with
        | nil =>
          obtain ⟨rfl, rfl⟩ := List.cons.inj hpre
          apply hall
          rw [heq]
          simp [isDeleted]
        | cons x pre =>
          obtain ⟨rfl, hbody⟩ := List.cons.inj hpre
          exact htrim pre de hbody
      · rw [show slotsOf (it :: body) = it.slots ++ slotsOf body from rfl, List.length_append, hlen]

/-- The item is an entry with the name. -/
def Named (name : List UInt8) : DirItem → Prop
  | .deleted _ => False
  | .live longs short => Ecache.sameName name (decodeEntry {} longs short).filename = true

/-- No entry has the name. -/
theorem find?_hasName_eq_none {name : List UInt8} {items : List DirItem} (p : Nat) :
    (entriesFrom p items).find? (hasName name) = none ↔ ∀ it ∈ items, ¬ Named name it := by
  induction items generalizing p with
  | nil => simp [entriesFrom]
  | cons it items ih =>
    cases it with
    | deleted de => simp [entriesFrom, ih, Named]
    | live longs short =>
      rw [entriesFrom, List.find?_cons]
      cases hfound : hasName name (32 * p, longs.length + 1, decodeEntry {} longs short) with
      | true =>
        have hnamed : Named name (.live longs short) := hfound
        simp [hnamed]
      | false =>
        have hnamed : ¬ Named name (.live longs short) := Bool.eq_false_iff.mp hfound
        simp [ih, hnamed]

/-- Deleted slots in front of an entry are the first such. -/
structure FirstGap (items pre : List DirItem) (dels : List (List UInt8)) (longs : List (List UInt8))
    (short : List UInt8) (post : List DirItem) : Prop where
  eq : items = pre ++ (dels.map .deleted ++ .live longs short :: post)
  pos : dels ≠ []
  trimmed : Trimmed pre
  none : ¬ Gap pre

/-- The search for the name does not end at deleted slots: `enext` clears the name there, so that
the empty name would compare equal. -/
def Visible (name : List UInt8) (items : List DirItem) : Prop :=
  ∀ pre dels longs short post, FirstGap items pre dels longs short post → name = [] →
    ∃ it ∈ pre, Named name it

/-- A name that is not empty is visible. -/
theorem visible_of_ne {name : List UInt8} (h : name ≠ []) (items : List DirItem) :
    Visible name items := fun _ _ _ _ _ _ hn ↦ absurd hn h

private theorem trimmed_nil : Trimmed [] := fun pre de h ↦ by simp at h

private theorem not_gap_nil : ¬ Gap [] := by
  rintro ⟨pre, de, longs, short, post, h⟩
  simp at h

/-- A live item before a trimmed image. -/
theorem Trimmed.cons {longs : List (List UInt8)} {short : List UInt8} {items : List DirItem}
    (h : Trimmed items) : Trimmed (.live longs short :: items) := by
  rintro (- | ⟨it, pre⟩) de heq
  · cases heq
  · exact h pre de (List.cons.inj heq).2

private theorem Gap.of_cons {longs : List (List UInt8)} {short : List UInt8} {items : List DirItem}
    (h : Gap (.live longs short :: items)) : Gap items := by
  obtain ⟨- | ⟨it, pre⟩, de, longs', short', post, heq⟩ := h
  · cases heq
  · exact ⟨pre, de, longs', short', post, (List.cons.inj heq).2⟩

/-- A live item before the first gap. -/
theorem FirstGap.cons {items pre post : List DirItem} {dels longs : List (List UInt8)}
    {short : List UInt8} (h : FirstGap items pre dels longs short post) (longs' : List (List UInt8))
    (short' : List UInt8) :
      FirstGap (.live longs' short' :: items) (.live longs' short' :: pre) dels
      longs short post where
  eq := by rw [h.eq, List.cons_append]
  pos := h.pos
  trimmed := h.trimmed.cons
  none hgap := h.none hgap.of_cons

/-- Where the deleted slots start no entry does. -/
theorem FirstGap.off_ne {items pre post : List DirItem} {dels longs : List (List UInt8)}
    {short : List UInt8} (h : FirstGap items pre dels longs short post) (hwf : ∀ it ∈ items, it.Wf)
    {e : Nat × Nat × Fs.Dirent} (he : e ∈ entriesFrom 0 items) :
    e.1 ≠ 32 * (slotsOf pre).length := by
  obtain ⟨es1, es2, hsplit⟩ := List.append_of_mem he
  obtain ⟨pre', longs', short', post', hitems, -, hoff, -⟩ := entriesFrom_split items 0 hsplit
  intro heq
  have hlen : (slotsOf pre').length = (slotsOf pre).length := by omega
  -- the slot is the first one of an entry and a deleted one
  obtain ⟨de, des, hde, hfirst⟩ : ∃ de des, (DirItem.live longs' short').slots = de :: des ∧
      de.getD 0 0 ≠ emptyEntry := by
    obtain ⟨de, des, hde, -, -, hE⟩ := (hwf (.live longs' short') (by simp [hitems])).first
    exact ⟨de, des, hde, hE⟩
  obtain ⟨x, dels, rfl⟩ := List.exists_cons_of_ne_nil h.pos
  have hdel := (hwf (.deleted x) (by simp [h.eq])).2
  have hlive : (slotsOf items)[(slotsOf pre).length]? = some de := by
    rw [hitems, slotsOf_append, slotsOf_cons, hde, ← hlen,
      List.getElem?_append_right (Nat.le_refl _), Nat.sub_self]
    rfl
  have hgap : (slotsOf items)[(slotsOf pre).length]? = some x := by
    rw [h.eq, slotsOf_append, slotsOf_deleted_append, List.getElem?_append_right (Nat.le_refl _),
      Nat.sub_self]
    rfl
  rw [hlive] at hgap
  rw [Option.some.inj hgap] at hfirst
  exact hfirst hdel

/-- Behind an entry that does not have the name. -/
theorem Visible.tail {name : List UInt8} {longs : List (List UInt8)} {short : List UInt8}
    {items : List DirItem} (h : Visible name (.live longs short :: items))
    (hne : ¬ Named name (.live longs short)) : Visible name items := by
  intro pre dels longs' short' post hfirst hn
  obtain ⟨it, hit, hnamed⟩ := h _ dels longs' short' post (hfirst.cons longs short) hn
  rcases List.mem_cons.mp hit with rfl | hit
  · exact absurd hnamed hne
  · exact ⟨it, hit, hnamed⟩

/-- In front of deleted slots and an entry only a name that is not empty is searched for. -/
theorem Visible.ne_nil {name : List UInt8} {dels longs : List (List UInt8)} {short : List UInt8}
    {items : List DirItem} (h : Visible name (dels.map .deleted ++ .live longs short :: items))
    (hd : dels ≠ []) : name ≠ [] := by
  intro hn
  obtain ⟨it, hit, -⟩ := h [] dels longs short items ⟨rfl, hd, trimmed_nil, not_gap_nil⟩ hn
  cases hit

/-- What is visible in the whole is visible in the first part. -/
theorem Visible.left {name : List UInt8} {xs ys : List DirItem} (h : Visible name (xs ++ ys)) :
    Visible name xs := by
  intro pre dels longs short post hfirst
  refine h pre dels longs short (post ++ ys) ⟨?_, hfirst.pos, hfirst.trimmed, hfirst.none⟩
  rw [hfirst.eq]
  simp

/-- One more item at the end. -/
theorem Visible.concat {name : List UInt8} {items : List DirItem} (h : Visible name items)
    {it : DirItem} (hlast : ∀ longs short, it = .live longs short → Trimmed items) :
    Visible name (items ++ [it]) := by
  intro pre dels longs short post hfirst hn
  have heq := hfirst.eq
  rcases List.eq_nil_or_concat' post with rfl | ⟨post', x, rfl⟩
  · rw [List.append_cons, ← List.append_assoc, List.append_nil] at heq
    obtain ⟨hitems, hit⟩ := List.append_inj' heq rfl
    have htrim := hlast longs short (List.cons.inj hit).1
    rw [hitems, ← List.dropLast_append_getLast hfirst.pos] at htrim
    exact absurd (by simp) (htrim (pre ++ dels.dropLast.map .deleted) (dels.getLast hfirst.pos))
  · rw [show pre ++ (dels.map DirItem.deleted ++ .live longs short :: (post' ++ [x])) =
      (pre ++ (dels.map .deleted ++ .live longs short :: post')) ++ [x] by simp] at heq
    exact h pre dels longs short post' ⟨(List.append_inj' heq rfl).1, hfirst.pos, hfirst.trimmed,
      hfirst.none⟩ hn

/-- Deleted slots at the end hide nothing. -/
theorem Visible.append_deleted {name : List UInt8} {items : List DirItem}
    (h : Visible name items) (dels : List (List UInt8)) :
    Visible name (items ++ dels.map .deleted) := by
  induction dels using List.reverseRecOn with
  | nil => rwa [List.map_nil, List.append_nil]
  | append_singleton dels de ih =>
    rw [List.map_append, ← List.append_assoc]
    exact ih.concat fun _ _ h ↦ by cases h

/-- A search that is hidden from ends at the first deleted slots in front of an entry. -/
theorem exists_hidden {name : List UInt8} {items : List DirItem} (h : ¬ Visible name items) :
    name = [] ∧ ∃ pre dels longs short post, FirstGap items pre dels longs short post ∧
      ∀ it ∈ pre, ¬ Named name it := by
  unfold Visible at h
  push Not at h
  obtain ⟨pre, dels, longs, short, post, hfirst, hn, hnone⟩ := h
  exact ⟨hn, pre, dels, longs, short, post, hfirst, hnone⟩

variable {v : Volume} {l : List Nat}

/-- The outcome of the loop over items from slot `p` on, whatever stands behind them: it ends at the
first entry with the name, or goes on behind the items. -/
inductive Scanned (v : Volume) (l : List Nat) (name : List UInt8) (p : Nat) (items : List DirItem)
    (fuel : Nat) (dp : Fs.Dirent) (x : Except Panic SearchOut) : Prop where
  | hit (e : Nat × Nat × Fs.Dirent) (r : SearchOut)
      (first : (entriesFrom p items).find? (hasName name) = some e) (out : x = .ok r) (is : Hit r e)
      (valid : r.ep.valid = 0) (same : SameEntry dp r.dp) (onChain : OnChain r.dp l)
  | pass (none : (entriesFrom p items).find? (hasName name) = none) (fuel' : Nat)
      (dp' ep' : Fs.Dirent) (count' : Nat)
      (out : x = searchLoop v name fuel' dp' ep' (32 * (p + (slotsOf items).length)) count')
      (enough : fuel ≤ fuel' + items.length) (valid : ep'.valid = 0) (same : SameEntry dp dp')
      (onChain : OnChain dp' l)

/-- The loop of `dirlookup` over items that end with an entry. -/
theorem searchLoop_items {name : List UInt8} (fuel : Nat) {dp ep : Fs.Dirent} {p : Nat}
    (count : Nat)
    {items : List DirItem} (hname : Visible name items) (htrim : Trimmed items)
    (hfuel : items.length < fuel) (h : LiveDir v l dp) (he : ep.valid = 0)
    (himg : ItemsFrom v l p items) (hp : 32 * p ≤ l.length * v.geom.bytsPerClus) :
    Scanned v l name p items fuel dp (searchLoop v name fuel dp ep (32 * p) count) := by
  induction fuel generalizing dp ep p count items with
  | zero => exact absurd hfuel (Nat.not_lt_zero _)
  | succ fuel ih =>
    have hin := himg.inside hp
    have hb := himg.bound
    obtain ⟨dels, rest, rfl, hrest⟩ := split_deleted items
    have hentries := entriesFrom_deleted rest dels p
    rw [slotsOf_deleted_append, List.length_append] at hb hin
    cases rest with
    | nil =>
      rw [List.append_nil] at htrim hentries himg ⊢
      cases dels using List.reverseRecOn with
      | nil => exact .pass rfl (fuel + 1) dp ep count rfl (Nat.le_refl _) he rfl h.onChain
      | append_singleton dels de =>
        exact absurd (by simp) (htrim (dels.map .deleted) de)
    | cons it tail =>
      cases it with
      | deleted de => exact absurd rfl (hrest de tail)
      | live longs short =>
        by_cases hd : dels = []
        · subst hd
          rw [List.map_nil, List.nil_append] at himg hfuel htrim hname ⊢
          obtain ⟨dp1, hnext, hse, ho⟩ := enext_live ep (some count) h he himg
          have hlen : (DirItem.live longs short).slots.length = longs.length + 1 := by
            simp [DirItem.slots]
          have hslots : (slotsOf (.live longs short :: tail)).length =
              longs.length + 1 + (slotsOf tail).length := by
            rw [show slotsOf (.live longs short :: tail) =
              (DirItem.live longs short).slots ++ slotsOf tail from rfl, List.length_append, hlen]
          rw [hslots, List.length_nil] at hb hin
          have hlist : entriesFrom p (.live longs short :: tail) =
              (32 * p, longs.length + 1, decodeEntry {} longs short) ::
                entriesFrom (p + longs.length + 1) tail := rfl
          have hstep : searchLoop v name (fuel + 1) dp ep (32 * p) count =
              if Ecache.sameName name (decodeEntry {} longs short).filename then
                .ok ⟨dp1, decodeEntry ep longs short, true, 32 * p⟩
              else searchLoop v name fuel dp1 (decodeEntry ep longs short)
                (32 * (p + longs.length + 1)) (longs.length + 1) := by
            rw [searchLoop, hnext]
            simp only [Option.getD_some]
            rw [if_neg (by decide), decodeEntry_filename,
              show (32 * p + (longs.length + 1) * 32) % 2 ^ 32 = 32 * (p + longs.length + 1) by
                omega]
          have hnamed : hasName name (32 * p, longs.length + 1, decodeEntry {} longs short) =
              Ecache.sameName name (decodeEntry {} longs short).filename := rfl
          rw [hstep]
          split_ifs with hfound
          · refine .hit _ _ (hlist ▸ List.find?_cons_of_pos (hnamed.trans hfound)) rfl ?_ he hse ho
            exact ⟨rfl, rfl, decodeEntry_filename ep longs short, rfl, rfl, rfl⟩
          · have htail := himg.tail
            rw [hlen, ← Nat.add_assoc] at htail
            have hshort : tail.length < fuel := by
              rw [List.length_cons] at hfuel
              omega
            have hskip : (entriesFrom p (.live longs short :: tail)).find? (hasName name) =
                (entriesFrom (p + longs.length + 1) tail).find? (hasName name) := by
              rw [hlist, List.find?_cons_of_neg (hnamed ▸ hfound)]
            have hev : (decodeEntry ep longs short).valid = 0 := he
            cases ih (longs.length + 1) (hname.tail hfound)
              (show Trimmed ([.live longs short] ++ tail) from htrim).of_append hshort
                (h.move hse ho) hev
              htail (by omega) with
            | hit e r first out is valid same onChain =>
              exact .hit e r (hskip.trans first) out is valid (hse.trans same) onChain
            | pass none fuel' dp' ep' count' out enough valid same onChain =>
              refine .pass (hskip.trans none) fuel' dp' ep' count' ?_ ?_ valid (hse.trans same)
                onChain
              · rw [out, hslots]
                congr 1
                omega
              · rw [List.length_cons]
                omega
        · have hne : name ≠ [] := hname.ne_nil hd
          obtain ⟨dp1, hnext, hse, ho⟩ := enext_gap ep (some count) h he hd himg hp
          have hpos : 0 < dels.length := List.length_pos_of_ne_nil hd
          have hshort : (DirItem.live longs short :: tail).length < fuel := by
            rw [List.length_append, List.length_map] at hfuel
            omega
          have hstep : searchLoop v name (fuel + 1) dp ep (32 * p) count =
              searchLoop v name fuel dp1 { ep with filename := [] } (32 * (p + dels.length))
                dels.length := by
            rw [searchLoop, hnext]
            simp only [Option.getD_some]
            rw [if_neg (by decide), sameName_nil hne, if_neg Bool.false_ne_true,
              show (32 * p + dels.length * 32) % 2 ^ 32 = 32 * (p + dels.length) by omega]
          have hev : ({ ep with filename := [] } : Fs.Dirent).valid = 0 := he
          rw [hstep]
          cases ih dels.length (visible_of_ne hne _) htrim.of_append hshort (h.move hse ho) hev
            himg.drop_deleted (by omega) with
          | hit e r first out is valid same onChain =>
            exact .hit e r (hentries ▸ first) out is valid (hse.trans same) onChain
          | pass none fuel' dp' ep' count' out enough valid same onChain =>
            refine .pass (hentries ▸ none) fuel' dp' ep' count' ?_ ?_ valid (hse.trans same) onChain
            · rw [out, slotsOf_deleted_append, List.length_append]
              congr 1
              omega
            · rw [List.length_append, List.length_map]
              omega

/-- The loop of `dirlookup` at the deleted slots up to the end of the directory. -/
theorem searchLoop_tail (name : List UInt8) (fuel : Nat) {dp : Fs.Dirent} (ep : Fs.Dirent) {p : Nat}
    (count : Nat) {dels : List (List UInt8)} (h : LiveDir v l dp) (he : ep.valid = 0)
    (himg : ImageFrom v l p (dels.map .deleted)) (hp : 32 * p ≤ l.length * v.geom.bytsPerClus) :
    ∃ dp', searchLoop v name (fuel + 1) dp ep (32 * p) count =
        .ok ⟨dp', { ep with filename := [] }, false, 32 * p⟩ ∧ SameEntry dp dp' ∧
      OnChain dp' l := by
  obtain ⟨dp', hnext, hse, ho⟩ := enext_tail ep (some count) h he himg hp
  refine ⟨dp', ?_, hse, ho⟩
  rw [searchLoop, hnext]
  rfl

/-- The outcome of a search of a directory with the items `items`. -/
structure Searched (l : List Nat) (name : List UInt8) (items : List DirItem) (dp : Fs.Dirent)
    (r : SearchOut) : Prop where
  valid : r.ep.valid = 0
  same : SameEntry dp r.dp
  onChain : OnChain r.dp l
  hit : ∀ e, (entriesFrom 0 items).find? (hasName name) = some e → Hit r e
  miss : (entriesFrom 0 items).find? (hasName name) = none →
    r.found = false ∧ r.off = 32 * tailSlot items

/-- Deleted slots at the end hold no entry. -/
theorem entriesFrom_append_deleted (dels : List (List UInt8)) (items : List DirItem) (p : Nat) :
    entriesFrom p (items ++ dels.map .deleted) = entriesFrom p items := by
  induction items generalizing p with
  | nil =>
    have := entriesFrom_deleted [] dels p
    rwa [List.append_nil] at this
  | cons it items ih =>
    cases it with
    | deleted de => exact ih (p + 1)
    | live longs short =>
      rw [List.cons_append, entriesFrom, entriesFrom, ih]

/-- At the start of the search. -/
theorem relocClus_zero {dp : Fs.Dirent} (h : LiveDir v l dp) :
    ∃ dp' off, relocClus v dp 0 false = .ok (v, dp', off) ∧ SameEntry dp dp' ∧ OnChain dp' l := by
  have hc : l[0 / v.geom.bytsPerClus]? = some dp.firstClus := by
    rw [Nat.zero_div]
    exact h.onChain.getElem?_zero h.firstClus
  have hreloc := relocClus_inside h.chain h.onChain h.firstClus false hc
  exact ⟨_, _, hreloc, rfl, h.onChain.move hc⟩

/-- The start of a search behind which there are items. -/
theorem searchDir_items {name : List UInt8} {dp : Fs.Dirent} (ep : Fs.Dirent)
    {items : List DirItem} (hname : Visible name items) (htrim : Trimmed items) (h : LiveDir v l dp)
    (he : ep.valid = 0) (himg : ItemsFrom v l 0 items) :
    Scanned v l name 0 items (enextFuel v) dp (searchDir v name dp ep) := by
  obtain ⟨dp1, off, hreloc, hse, ho⟩ := relocClus_zero h
  have hfuel := enextFuel_image h.chain h.nodup (Nat.zero_add _ ▸ himg.inside (Nat.zero_le _))
  have hcount := length_le_slotsOf items
  have hsearch : searchDir v name dp ep = searchLoop v name (enextFuel v) dp1 ep (32 * 0) 0 := by
    rw [searchDir, hreloc]
  rw [hsearch]
  cases searchLoop_items (enextFuel v) 0 hname htrim (by omega) (h.move hse ho) he himg
    (Nat.zero_le _) with
  | hit e r first out is valid same onChain =>
    exact .hit e r first out is valid (hse.trans same) onChain
  | pass none fuel' dp' ep' count' out enough valid same onChain =>
    exact .pass none fuel' dp' ep' count' out enough valid (hse.trans same) onChain

/-- The search of `dirlookup` in a well-formed directory. -/
theorem searchDir_image {name : List UInt8} {dp ep : Fs.Dirent} {items : List DirItem}
    (hname : Visible name items) (h : LiveDir v l dp) (he : ep.valid = 0)
    (himg : ImageFrom v l 0 items) :
    ∃ r, searchDir v name dp ep = .ok r ∧ Searched l name items dp r := by
  obtain ⟨body, dels, rfl, htrim, htail⟩ := exists_trimmed items
  have hentries := entriesFrom_append_deleted dels body 0
  have hin := himg.inside (Nat.zero_le _)
  have hfuel := enextFuel_image h.chain h.nodup (Nat.zero_add _ ▸ hin)
  have hcount := length_le_slotsOf (body ++ dels.map .deleted)
  rw [List.length_append] at hcount
  have hbody : ItemsFrom v l 0 body := himg.items.left
  cases searchDir_items ep hname.left htrim h he hbody with
  | hit e r first out is valid same onChain =>
    refine ⟨r, out, valid, same, onChain, fun e' he' ↦ ?_, fun hnone ↦ ?_⟩
    · rw [hentries, first] at he'
      cases he'
      exact is
    · rw [hentries, first] at hnone
      cases hnone
  | pass none fuel' dp' ep' count' out enough valid same onChain =>
    have hrest := himg.drop
    rw [Nat.zero_add] at hrest out
    have hp := hbody.inside (Nat.zero_le _)
    rw [Nat.zero_add] at hp
    cases fuel' with
    | zero => omega
    | succ fuel' =>
      obtain ⟨dp2, hstop, hse2, ho2⟩ := searchLoop_tail name fuel' ep' count'
        (h.move same onChain) valid hrest hp
      refine ⟨_, out.trans hstop, valid, same.trans hse2, ho2, fun e he' ↦ ?_,
        fun _ ↦ ⟨rfl, by rw [htail]⟩⟩
      rw [hentries, none] at he'
      cases he'

/-- The search for the empty name ends at deleted slots in front of an entry. -/
theorem searchDir_hidden {name : List UInt8} {dp ep : Fs.Dirent} {items : List DirItem}
    (hname : ¬ Visible name items) (h : LiveDir v l dp) (he : ep.valid = 0)
    (himg : ImageFrom v l 0 items) :
    ∃ r, searchDir v name dp ep = .ok r ∧ r.found = true ∧ r.ep.valid = 0 ∧ SameEntry dp r.dp ∧
      OnChain r.dp l ∧ ∀ e ∈ entriesFrom 0 items, e.1 ≠ r.off := by
  obtain ⟨rfl, pre, dels, longs, short, post, hfirst, hnone⟩ := exists_hidden hname
  have hne : ∀ e ∈ entriesFrom 0 items, e.1 ≠ 32 * (slotsOf pre).length :=
    fun e he ↦ hfirst.off_ne himg.wf he
  have hpre : ItemsFrom v l 0 pre := (hfirst.eq ▸ himg.items).left
  have hvisible : Visible [] pre := by
    intro pre' dels' longs' short' post' hgap
    refine absurd ⟨pre' ++ dels'.dropLast.map .deleted, dels'.getLast hgap.pos, longs', short',
      post', ?_⟩ hfirst.none
    conv_lhs => rw [hgap.eq, ← List.dropLast_append_getLast hgap.pos]
    simp
  have hin := hpre.inside (Nat.zero_le _)
  rw [Nat.zero_add] at hin
  cases searchDir_items ep hvisible hfirst.trimmed h he hpre with
  | hit e r first =>
    rw [(find?_hasName_eq_none 0).mpr hnone] at first
    cases first
  | pass none fuel' dp' ep' count' out enough valid same onChain =>
    have hall := himg.inside (Nat.zero_le _)
    have hfuel := enextFuel_image h.chain h.nodup (Nat.zero_add _ ▸ hall)
    have hcount := length_le_slotsOf items
    have hlen := congrArg List.length hfirst.eq
    rw [List.length_append, List.length_append, List.length_cons] at hlen
    rw [Nat.zero_add] at out
    have hrest := hfirst.eq ▸ himg
    have hgap := hrest.drop.items
    rw [Nat.zero_add] at hgap
    cases fuel' with
    | zero => omega
    | succ fuel' =>
      obtain ⟨dp2, hnext, hse, ho⟩ := enext_gap ep' (some count') (h.move same onChain) valid
        hfirst.pos hgap hin
      refine ⟨⟨dp2, { ep' with filename := [] }, true, 32 * (slotsOf pre).length⟩, ?_, rfl, valid,
        same.trans hse, ho, hne⟩
      rw [out, searchLoop, hnext]
      rfl

end Xv6K210.Mount
