import Mathlib.Data.Fintype.Pigeonhole
import Xv6K210.Fs.DirFrame
import Xv6K210.Fs.RoundTrip

/-!
# New entries of a directory

Source `kernel/fs/fat32.c:486–601`. `ealloc` writes the slots of a new entry behind the
last entry of a directory, over the deleted slots that stand there. The image of the directory gets
one item more, and end marks follow up to the end of the chain.
-/

namespace Xv6K210.Fs

open Xv6K210.Base Function

/-! ### Well-formed directories -/

/-- A well-formed directory: entries and deleted slots, then end marks up to the end of the
chain. -/
structure WholeDir (v : Volume) (l : List Nat) (items : List DirItem) : Prop where
  image : ImageFrom v l 0 items
  marks : ∀ k, (slotsOf items).length ≤ k → 32 * k < l.length * v.geom.bytsPerClus →
    fileByte v l (32 * k) = endOfEntry
  names : ∀ e ∈ entriesFrom 0 items, e.2.2.filename.length ≤ fat32MaxFilename

variable {v v' : Volume} {l : List Nat} {items : List DirItem}

/-- Marks end an image. -/
theorem endsAt_of_marks {n : Nat}
    (h : ∀ k, n ≤ k → 32 * k < l.length * v.geom.bytsPerClus → fileByte v l (32 * k) = endOfEntry) :
    EndsAt v l (32 * n) := by
  by_cases hin : 32 * n < l.length * v.geom.bytsPerClus
  · exact .inr (h n (Nat.le_refl _) hin)
  · exact .inl (Nat.not_lt.mp hin)

/-- A slot whose bytes are kept. -/
theorem dirSlot_kept {l' : List Nat} {off : Nat}
    (h : ∀ k, off ≤ k → k < off + 32 → fileByte v' l' k = fileByte v l k) :
    dirSlot v' l' off = dirSlot v l off := by
  unfold dirSlot
  apply List.map_congr_left
  intro k hk
  rw [List.mem_range] at hk
  exact h _ (Nat.le_add_right _ _) (by omega)

/-- A directory whose clusters keep their bytes. -/
theorem WholeDir.sameBytes (h : WholeDir v l items) (hs : SameBytes v v' l)
    (hg : v'.geom = v.geom) : WholeDir v' l items := by
  have hbyte : ∀ k < l.length * v.geom.bytsPerClus, fileByte v' l k = fileByte v l k :=
    fun k hk ↦ hs.fileByte_eq hg List.prefix_rfl hk
  have hmarks : ∀ k, (slotsOf items).length ≤ k → 32 * k < l.length * v'.geom.bytsPerClus →
      fileByte v' l (32 * k) = endOfEntry := by
    intro k hk hin
    rw [hg] at hin
    rw [hbyte _ hin]
    exact h.marks k hk hin
  have hends := endsAt_of_marks hmarks
  refine ⟨⟨h.image.wf, fun j hj ↦ ?_, ?_, h.image.bound⟩, hmarks, h.names⟩
  · obtain ⟨hin, hslot⟩ := h.image.slots j hj
    have hend := slot_end_le v.geom _ (slotOff_mod (by omega) _) hin
    rw [hg]
    refine ⟨hin, ?_⟩
    rw [← hslot]
    apply dirSlot_kept
    intro k _ hk
    exact hbyte k (by omega)
  · rwa [Nat.zero_add]

/-! ### One item more -/

section

variable {chain : Nat → List Nat} {i : Nat} {dp dp' : Dirent} {body : List DirItem}
  {dels : List (List UInt8)} {it : DirItem}

/-- The slots of one item. -/
theorem slotsOf_singleton (it : DirItem) : slotsOf [it] = it.slots := List.append_nil _

private theorem slotsOf_made (body : List DirItem) (it : DirItem) (dels : List (List UInt8)) :
    slotsOf (body ++ it :: dels.map .deleted) = slotsOf body ++ (it.slots ++ dels) := by
  rw [slotsOf_append,
    show slotsOf (it :: dels.map .deleted) = it.slots ++ slotsOf (dels.map .deleted)
    from rfl, slotsOf_deleted]

/-- The slots of an item were written behind the last entry of a directory. -/
theorem PutSlots.whole (hdir : WholeDir v (chain i) (body ++ dels.map .deleted))
    (hp : PutSlots v chain i dp (32 * (slotsOf body).length) it.slots v' dp' l) (hwf : it.Wf)
    (hname : ∀ e ∈ entriesFrom (slotsOf body).length [it],
      e.2.2.filename.length ≤ fat32MaxFilename)
    (hb : 32 * ((slotsOf body).length + it.slots.length) < 2 ^ 32) :
    WholeDir v' l (body ++ it :: (dels.drop it.slots.length).map .deleted) := by
  have hg := hp.grown.geom
  have hold := hdir.image.slots
  have hbound := hdir.image.bound
  have hmarks := hdir.marks
  have hnames := hdir.names
  have hwhole : slotsOf (body ++ dels.map .deleted) = slotsOf body ++ dels := by
    rw [slotsOf_append, slotsOf_deleted]
  rw [hwhole] at hold hbound hmarks
  rw [slotsAt_iff hbound] at hold
  simp only [List.length_append, Nat.zero_add] at hold hbound hmarks
  have hcap : (chain i).length * v.geom.bytsPerClus ≤ l.length * v.geom.bytsPerClus :=
    Nat.mul_le_mul_right _ hp.pre.length_le
  have hoff : ∀ j < it.slots.length,
      slotOff (32 * (slotsOf body).length) j = 32 * ((slotsOf body).length + j) :=
    fun j hj ↦ slotOff_mul (by omega)
  have hkept : ∀ k < (chain i).length * v.geom.bytsPerClus, k < 32 * (slotsOf body).length ∨
      32 * ((slotsOf body).length + it.slots.length) ≤ k →
      fileByte v' l k = fileByte v (chain i) k := by
    intro k hk hout
    apply hp.kept k hk
    intro j hj
    rw [hoff j hj]
    omega
  have hnew : ∀ k, (slotsOf body).length + it.slots.length ≤ k →
      (slotsOf body).length + dels.length ≤ k → 32 * k < l.length * v'.geom.bytsPerClus →
      fileByte v' l (32 * k) = endOfEntry := by
    intro k hit hdel hin
    rw [hg] at hin
    by_cases hlt : 32 * k < (chain i).length * v.geom.bytsPerClus
    · rw [hkept _ hlt (.inr (by omega))]
      exact hmarks k hdel hlt
    · apply hp.zeroed _ hin (by omega)
      intro j hj
      rw [hoff j hj]
      omega
  have hslot : ∀ q (hq : q < (slotsOf body ++ dels).length), q < (slotsOf body).length ∨
      (slotsOf body).length + it.slots.length ≤ q →
      32 * q < l.length * v.geom.bytsPerClus ∧
        dirSlot v' l (32 * q) = (slotsOf body ++ dels)[q] := by
    intro q hq hout
    rw [List.length_append] at hq
    obtain ⟨hin, heq⟩ := hold q hq
    have hend := slot_end_le v.geom (32 * q) (by omega) hin
    refine ⟨by omega, ?_⟩
    rw [← heq]
    apply dirSlot_kept
    intro k hle hk
    exact hkept k (by omega) (by omega)
  have hlen : (slotsOf (body ++ it :: (dels.drop it.slots.length).map .deleted)).length =
      (slotsOf body).length + (it.slots.length + (dels.length - it.slots.length)) := by
    rw [slotsOf_made, List.length_append, List.length_append, List.length_drop]
  have hmarks' : ∀ k,
      (slotsOf (body ++ it :: (dels.drop it.slots.length).map .deleted)).length ≤ k →
      32 * k < l.length * v'.geom.bytsPerClus → fileByte v' l (32 * k) = endOfEntry := by
    intro k hk hin
    rw [hlen] at hk
    exact hnew k (by omega) (by omega) hin
  refine ⟨⟨?_, ?_, ?_, ?_⟩, hmarks', ?_⟩
  · intro x hx
    rw [List.mem_append, List.mem_cons] at hx
    rcases hx with hx | rfl | hx
    · exact hdir.image.wf x (List.mem_append_left _ hx)
    · exact hwf
    · obtain ⟨de, hde, rfl⟩ := List.mem_map.mp hx
      exact hdir.image.wf _
        (List.mem_append_right _ (List.mem_map_of_mem (List.mem_of_mem_drop hde)))
  · rw [slotsAt_iff (by rw [hlen]; omega), hg]
    intro j hj
    simp only [slotsOf_made, Nat.zero_add]
    rw [hlen] at hj
    by_cases hbody : j < (slotsOf body).length
    · obtain ⟨hin, heq⟩ := hslot j (by rw [List.length_append]; omega) (.inl hbody)
      rw [List.getElem_append_left hbody] at heq ⊢
      exact ⟨hin, heq⟩
    · rw [List.getElem_append_right (Nat.not_lt.mp hbody)]
      by_cases hitem : j - (slotsOf body).length < it.slots.length
      · have hin := hp.inside _ hitem
        have heq := hp.slots _ hitem
        rw [hoff _ hitem, show (slotsOf body).length + (j - (slotsOf body).length) = j by omega]
          at hin heq
        rw [List.getElem_append_left hitem]
        exact ⟨hin, heq⟩
      · obtain ⟨hin, heq⟩ := hslot j (by rw [List.length_append]; omega) (.inr (by omega))
        rw [List.getElem_append_right (by omega)] at heq
        refine ⟨hin, ?_⟩
        rw [heq, List.getElem_append_right (by omega), List.getElem_drop]
        congr 1
        omega
  · rw [Nat.zero_add]
    exact endsAt_of_marks hmarks'
  · rw [hlen]
    omega
  · intro e he
    rw [show body ++ it :: (dels.drop it.slots.length).map .deleted =
      body ++ [it] ++ (dels.drop it.slots.length).map .deleted by simp] at he
    rw [entriesFrom_append, entriesFrom_append, List.mem_append, List.mem_append,
      Nat.zero_add] at he
    rw [entriesFrom_append] at hnames
    rcases he with (he | he) | he
    · exact hnames e (List.mem_append_left _ he)
    · exact hname e he
    · have hnil := entriesFrom_deleted [] (dels.drop it.slots.length)
        (0 + (slotsOf (body ++ [it])).length)
      rw [List.append_nil] at hnil
      rw [hnil] at he
      cases he

end

/-! ### The item that is written -/

/-- What `emake` may be asked to write: a name that `formatname` accepts, and fields in their
ranges. -/
structure Recordable (ep : Dirent) : Prop where
  chars : ∀ c ∈ ep.filename, 0x20 ≤ c
  first : ∀ c t, ep.filename = c :: t → c ≠ spaceCh ∧ c ≠ dotCh
  short : ep.filename.length ≤ fat32MaxFilename
  attr : ∃ kind : NodeKind, ep.attr = eallocAttr kind.attr
  clus : ep.firstClus < 2 ^ 32
  size : ep.fileSize < 2 ^ 32

/-- The item that `emake` writes at an offset: up to the second slot it is one of the entries `.`
and `..`, whatever the name. -/
def madeItem (ep : Dirent) (off : Nat) : DirItem :=
  if off ≤ 32 then .live [] (sne (dotName off) attrDirectory ep.firstClus 0)
  else
    let shortname := generateShortname ep.filename
    .live (longSlots ep.filename (calChecksum shortname) (longCount ep.filename)
      (longCount ep.filename)) (sne shortname ep.attr ep.firstClus ep.fileSize)

/-- `emake` writes the slots of an item. -/
theorem emake_eq_made {dp ep : Dirent} {off : Nat} (hdir : dp.attr &&& attrDirectory ≠ 0)
    (ha : off % 32 = 0) : emake v dp ep off = putSlots v dp off (madeItem ep off).slots := by
  unfold madeItem
  by_cases hoff : off ≤ 32
  · rw [if_pos hoff, emake, if_neg hdir, if_neg (by omega), if_pos hoff]
    change _ = putSlots v dp off [_]
    rw [putSlots]
    cases putSlot v dp off (sne (dotName off) attrDirectory ep.firstClus 0) <;> rfl
  · rw [if_neg hoff]
    exact emake_eq_putSlots hdir ha (by omega)

private theorem length_dotName (off : Nat) : (dotName off).length = charShortName := by
  unfold dotName
  split_ifs <;> rfl

/-- How many slots `emake` writes. -/
theorem madeItem_length (ep : Dirent) (off : Nat) :
    (madeItem ep off).slots.length = if off ≤ 32 then 1 else longCount ep.filename + 1 := by
  unfold madeItem
  split_ifs
  · rfl
  · simp [DirItem.slots, length_longSlots]

private theorem longCount_le {name : List UInt8} (h : name.length ≤ fat32MaxFilename) :
    longCount name ≤ 20 := by
  simp only [longCount, charLongName]
  simp only [fat32MaxFilename] at h
  omega

/-- The slots of an item have 32 bytes. -/
theorem madeItem_bytes {ep : Dirent} (he : Recordable ep) (off : Nat) :
    ∀ de ∈ (madeItem ep off).slots, de.length = 32 := by
  intro de hde
  unfold madeItem at hde
  split_ifs at hde
  · rw [DirItem.slots, List.nil_append, List.mem_singleton] at hde
    rw [hde]
    exact (sne_fields _ (length_dotName off) he.clus (Nat.two_pow_pos 32)).1
  · simp only [DirItem.slots, List.mem_append, List.mem_singleton] at hde
    rcases hde with hde | rfl
    · exact longSlots_length _ _ _ _ de hde
    · exact (sne_fields _ (length_generateShortname _) he.clus he.size).1

/-- The first byte of the short-name slot. -/
theorem Recordable.order {ep : Dirent} (he : Recordable ep) :
    (sne (generateShortname ep.filename) ep.attr ep.firstClus ep.fileSize).getD 0 0 ≠ endOfEntry ∧
      ((sne (generateShortname ep.filename) ep.attr ep.firstClus ep.fileSize).getD 0 0
        = emptyEntry ↔
        ep.filename.head? = some emptyEntry) := by
  by_cases hnil : ep.filename = []
  · rw [(sne_fields _ (length_generateShortname _) he.clus he.size).2.1, hnil]
    decide
  · have hfirst : ∃ c t, ep.filename = c :: t ∧
        (sne (generateShortname ep.filename) ep.attr ep.firstClus ep.fileSize).getD 0 0 =
          shortChar c ∧ c ≠ 0 := sne_first hnil he.chars he.first he.clus he.size
    obtain ⟨c, t, hname, horder, hc⟩ := hfirst
    rw [horder, hname, List.head?_cons, Option.some_inj, shortChar_empty_iff]
    exact ⟨fun h0 ↦ hc ((shortChar_zero_iff c).mp h0), Iff.rfl⟩

/-- The item is well formed, unless its short name reads as a deleted slot. -/
theorem madeItem_wf {ep : Dirent} (he : Recordable ep) {off : Nat}
    (hhead : 32 < off → ep.filename.head? ≠ some emptyEntry) : (madeItem ep off).Wf := by
  unfold madeItem
  split_ifs with hoff
  · obtain ⟨hlen, hfirst, hattr, -⟩ := sne_fields attrDirectory (length_dotName off) he.clus
      (Nat.two_pow_pos 32)
    have hdot : (dotName off).getD 0 0 = dotCh := by
      unfold dotName
      split_ifs <;> rfl
    refine ⟨trivial, Nat.zero_le _, hlen, ?_, ?_, ?_⟩
    · rw [hfirst, hdot]
      decide
    · rw [hfirst, hdot]
      decide
    · rw [hattr]
      decide
  · obtain ⟨hlen, -, hattr, -⟩ := sne_fields ep.attr (length_generateShortname ep.filename) he.clus
      he.size
    obtain ⟨h0, hE⟩ := he.order
    obtain ⟨kind, hkind⟩ := he.attr
    refine ⟨?_, ?_, hlen, h0, fun hx ↦ hhead (by omega) (hE.mp hx), ?_⟩
    · rw [length_longSlots]
      exact longRun_longSlots _ _ _ _
    · rw [length_longSlots]
      exact longCount_le he.short
    · rw [hattr, hkind]
      exact eallocAttr_ne_long kind

/-- `enext` at long-name slots in front of a slot that reads as a deleted one never finds an
entry. -/
theorem enext_uncounted {l : List Nat} {dp ep : Dirent} {p : Nat} {count : Option Nat}
    {longs : List (List UInt8)} {short : List UInt8} {r : EnextOut} (h : LiveDir v l dp)
    (he : ep.valid = 0) (hne : longs ≠ []) (hrun : LongRun longs.length longs)
    (hcnt : longs.length ≤ 20) (hlen : short.length = 32) (hE : short.getD 0 0 = emptyEntry)
    (hs : SlotsAt v l (32 * p) (longs ++ [short])) (hb : 32 * (p + longs.length + 1) < 2 ^ 32)
    (hr : enext v dp ep (32 * p) count = .ok r) : r.ret = -1 := by
  have hlast := (hs longs.length (by simp)).1
  rw [slotOff_mul (by omega)] at hlast
  have hfuel := enextFuel_image h.chain h.nodup (n := longs.length + 1) (by
    have := slot_end_le v.geom (32 * (p + longs.length)) (by omega) hlast
    omega)
  obtain ⟨fuel, hfuel⟩ := Nat.exists_eq_add_of_le hfuel
  obtain ⟨dp1, hloop, hse, ho, hrest⟩ := enextLoop_longs h.chain ep hcnt count [short]
    (fuel + 1 + 1) longs (fun x ↦ if x = 256 then ep.attr else 0) (Nat.le_refl _) hrun h.onChain
    h.firstClus (show 32 * p % 32 = 0 by omega) (by omega) hs
  have hne' : ¬ 0 = longs.length := (List.length_pos_of_ne_nil hne).ne
  rw [enext_eq count h he (by omega), show enextFuel v = fuel + 1 + 1 + longs.length by omega] at hr
  rw [if_pos rfl, decide_eq_true rfl] at hloop
  rw [hloop, decide_eq_false hne', if_neg hne'] at hr
  -- the slot behind the long-name slots is counted as a deleted one
  have h1 := h.move hse ho
  obtain ⟨hin, hslot⟩ := hrest.head (Nat.mod_lt _ (by decide))
  obtain ⟨dp2, hread, -, -⟩ :=
    enextSlot_inside h.chain ho h1.firstClus (slotOff_mod (by omega) _) hin
  have h0 : short.getD 0 0 ≠ endOfEntry := by
    rw [hE]
    decide
  rw [enextLoop, hread] at hr
  simp only [hslot, hlen, hE, ne_eq, not_true_eq_false, false_or, if_true] at hr
  rw [if_neg (by decide)] at hr
  exact enextLoop_uncounted _ (by decide) hr

/-- A short name is read back into a cleared buffer. -/
theorem nameOf_readShortName (buf : ByteMem) (de : List UInt8)
    (h : ∀ c ∈ shortNameBytes de, c ≠ 0) : nameOf (readShortName buf de) = shortNameBytes de := by
  have hlen : (shortNameBytes de).length ≤ 12 := by
    unfold shortNameBytes
    have h8 : (((de.take 11).take 8).takeWhile (· ≠ spaceCh)).length ≤ 8 :=
      (List.takeWhile_prefix _).length_le.trans (List.length_take_le 8 _)
    have h3 : (((de.take 11).drop 8).takeWhile (· ≠ spaceCh)).length ≤ 3 := by
      refine (List.takeWhile_prefix _).length_le.trans ?_
      rw [List.length_drop, List.length_take]
      omega
    rw [List.length_append]
    split_ifs
    · simp only [List.length_nil]
      omega
    · simp only [List.length_cons]
      omega
  generalize hb : readShortName buf de = b
  generalize hn : shortNameBytes de = name at h hlen ⊢
  apply nameOf_eq h (by omega)
  · intro k hk
    have := store_apply_mem (fill buf 0 (charShortName + 2) 0) 0 name k hk
    rw [Nat.zero_add] at this
    rw [← hb, readShortName, hn]
    exact this
  · rw [← hb, readShortName, hn, store_apply_of_not_mem _ _ _ _ (by omega)]
    exact fill_apply_mem _ _ (by simp only [charShortName]; omega)

private theorem shortNameBytes_sne {name : List UInt8} (attr : UInt8) (clus size : Nat)
    (hn : name.length = charShortName) :
    shortNameBytes (sne name attr clus size) = shortNameBytes name := by
  have htake : (sne name attr clus size).take 11 = name := by
    simp only [sne, List.append_assoc]
    exact List.take_left' hn
  rw [shortNameBytes, shortNameBytes, htake, List.take_of_length_le (Nat.le_of_eq hn)]

/-- What `enext` makes of an item that `emake` wrote behind the second slot. -/
theorem decode_madeItem (d : Dirent) {ep : Dirent} (he : Recordable ep) {off : Nat}
    (hoff : 32 < off) : ∃ longs short, madeItem ep off = .live longs short ∧
      longs.length = longCount ep.filename ∧ (decodeEntry d longs short).filename = ep.filename ∧
      (decodeEntry d longs short).attr = ep.attr ∧
      (decodeEntry d longs short).firstClus = ep.firstClus ∧
      (decodeEntry d longs short).fileSize = ep.fileSize := by
  obtain ⟨-, -, hattr, hclus, hsize⟩ := sne_fields ep.attr (length_generateShortname ep.filename)
    he.clus he.size
  refine ⟨_, _, by rw [madeItem, if_neg (by omega)], length_longSlots _ _ _ _, ?_, hattr, hclus,
    hsize⟩
  unfold decodeEntry fillEntry
  dsimp only
  by_cases hnil : ep.filename = []
  · rw [hnil, show longCount [] = 0 from rfl, longSlots, if_pos rfl]
    have hshort := shortNameBytes_sne ep.attr ep.firstClus ep.fileSize
      (length_generateShortname [])
    rw [show shortNameBytes (generateShortname []) = [] by decide] at hshort
    rw [nameOf_readShortName, hshort]
    rw [hshort]
    simp
  · have hpos : 1 ≤ longCount ep.filename := by
      have := List.length_pos_of_ne_nil hnil
      simp only [longCount, charLongName]
      omega
    have hlongs : longSlots ep.filename (calChecksum (generateShortname ep.filename))
        (longCount ep.filename) (longCount ep.filename) ≠ [] := by
      intro hx
      have := congrArg List.length hx
      rw [length_longSlots, List.length_nil] at this
      omega
    rw [if_neg hlongs]
    have hzero : ∀ c ∈ ep.filename, c ≠ 0 := by
      intro b hb h0
      have := he.chars b hb
      rw [h0] at this
      exact absurd this (by decide)
    exact nameOf_readLongs hzero he.short _ _ fun x hx ↦ if_neg (by omega)

/-- In the first two slots the entry gets a name of its own. -/
theorem decode_dots (d : Dirent) (ep : Dirent) {off : Nat} (hoff : off ≤ 32) :
    ∃ short, madeItem ep off = .live [] short ∧
      ((decodeEntry d [] short).filename = [dotCh] ∨
        (decodeEntry d [] short).filename = [dotCh, dotCh]) := by
  refine ⟨_, by rw [madeItem, if_pos hoff], ?_⟩
  have hshort := shortNameBytes_sne attrDirectory ep.firstClus 0 (length_dotName off)
  unfold decodeEntry fillEntry
  dsimp only
  rw [if_pos rfl]
  by_cases h0 : off = 0
  · have hdot : shortNameBytes (dotName off) = [dotCh] := by
      rw [h0]
      decide
    left
    rw [nameOf_readShortName, hshort, hdot]
    rw [hshort, hdot]
    decide +kernel
  · have hdot : shortNameBytes (dotName off) = [dotCh, dotCh] := by
      rw [dotName, if_neg h0]
      decide
    right
    rw [nameOf_readShortName, hshort, hdot]
    rw [hshort, hdot]
    decide +kernel

/-- Names that `emake` writes are not too long. -/
theorem madeItem_names {ep : Dirent} (he : Recordable ep) (off p : Nat) :
    ∀ e ∈ entriesFrom p [madeItem ep off], e.2.2.filename.length ≤ fat32MaxFilename := by
  by_cases hoff : off ≤ 32
  · obtain ⟨short, hitem, hname⟩ := decode_dots {} ep hoff
    rw [hitem]
    intro e hmem
    rw [List.mem_singleton.mp hmem]
    rcases hname with hname | hname
    · rw [hname]
      decide
    · rw [hname]
      decide
  · obtain ⟨longs, short, hitem, -, hname, -⟩ := decode_madeItem {} he (Nat.lt_of_not_le hoff)
    rw [hitem]
    intro e hmem
    rw [List.mem_singleton.mp hmem, hname]
    exact he.short

/-- A shorter name needs no more slots. -/
theorem longCount_take (name : List UInt8) (n : Nat) :
    longCount (name.take n) ≤ longCount name := by
  have := List.length_take_le' n name
  simp only [longCount, charLongName]
  omega

/-! ### A new entry -/

section

variable {chain : Nat → List Nat} {i : Nat}

/-- Bytes that stay twice stay. -/
theorem SameBytes.trans {v'' : Volume} (h : SameBytes v v' l) (h' : SameBytes v' v'' l)
    (hg : v'.geom = v.geom) : SameBytes v v'' l := by
  intro c hc x hx
  have hnext := h' c hc x (by rwa [hg])
  rw [hg] at hnext
  exact hnext.trans (h c hc x hx)

/-- Some chain is empty. -/
theorem FatWf.exists_nil (hw : FatWf v chain) (i : Nat) : ∃ j, j ≠ i ∧ chain j = [] := by
  by_contra hall
  push Not at hall
  have hhead : ∀ k, ∃ c, c ∈ chain (i + 1 + k) :=
    fun k ↦ List.exists_mem_of_ne_nil _ (hall _ (by omega))
  choose c hc using hhead
  have hlt : ∀ k, c k < v.geom.dataClusCnt + 2 := by
    intro k
    have := (hw.forest.inDom _ _ (hc k)).2
    omega
  refine not_injective_infinite_finite
    (fun k ↦ (⟨c k, hlt k⟩ : Fin (v.geom.dataClusCnt + 2))) fun k m hkm ↦ ?_
  have hkm' : c k = c m := congrArg Fin.val hkm
  have := hw.forest.index_unique (hc k) (hkm' ▸ hc m)
  omega

private theorem length_sne {name : List UInt8} (attr : UInt8) (clus size : Nat)
    (hn : name.length = charShortName) : (sne name attr clus size).length = 32 := by
  simp [sne, hn, charShortName]

/-- A slot is written in the one cluster of a new directory. -/
theorem putSlot_child {j c : Nat} {e : Dirent} (hw : FatWf v chain) (h1 : v.fat 1 ≠ 0)
    (hj : chain j = [c]) (he : OnChain e (chain j)) (hf : e.firstClus ≠ 0) {off : Nat}
    (hoff : off ≤ 32) (ha : off % 32 = 0) {de : List UInt8} (hde : de.length = 32) :
    ∃ v' e', putSlots v e off [de] = .ok (v', e') ∧ FatWf v' chain ∧ v'.fat 1 ≠ 0 ∧
      v'.geom = v.geom ∧ SameEntry e e' ∧ OnChain e' (chain j) ∧ freeCount v' = freeCount v ∧
      ∀ k, k ≠ j → SameBytes v v' (chain k) := by
  have hbps : 512 ≤ v.geom.bytsPerClus := by
    unfold Geom.bytsPerClus
    exact Nat.le_mul_of_pos_left _ v.geom.secPerClus_pos
  have hneed : ∀ m < [de].length, slotOff off m / v.geom.bytsPerClus < 1 := by
    intro m hm
    rw [List.length_singleton] at hm
    rw [Nat.div_lt_iff_lt_mul v.geom.bytsPerClus_pos, slotOff]
    omega
  have hlen : (chain j).length = 1 := by rw [hj, List.length_singleton]
  obtain ⟨v', e', l, hput, hp⟩ := putSlots_total [de] (i := j) off 1 hw h1 he hf
    (fun d hd ↦ by rwa [List.mem_singleton.mp hd]) (by simp) ha (by omega)
    (by rw [hlen]; omega) hneed (by omega)
  have hl : l = chain j := by
    have hle := hp.length 1 hneed
    exact (hp.pre.eq_of_length_le (by omega)).symm
  subst hl
  have hwf := hp.grown.wf
  have hfree := hp.free
  rw [update_eq_self] at hwf
  exact ⟨v', e', hput, hwf, hp.reserved, hp.grown.geom, hp.grown.entry, hp.grown.onChain, by omega,
    hp.others⟩

/-- `ealloc` of a directory: its cluster, with the entries `.` and `..`. -/
theorem makeDots {j : Nat} (hw : FatWf v chain) (h1 : v.fat 1 ≠ 0) (hj : chain j = [])
    (hfree : 0 < freeCount v) (ep dp : Dirent) (hdir : ep.attr &&& attrDirectory ≠ 0)
    (hcnt : ep.clusCnt = 0) :
    ∃ v1 v2 v3 c ep2 ep3, allocClus v = .ok (v1, c) ∧
      emake v1 { ep with firstClus := c, curClus := c } { ep with firstClus := c, curClus := c } 0 =
        .ok (v2, ep2) ∧
      emake v2 ep2 dp 32 = .ok (v3, ep3) ∧ FatWf v3 (update chain j [c]) ∧ v3.fat 1 ≠ 0 ∧
      v3.geom = v.geom ∧ v.geom.InRange c ∧
      SameEntry { ep with firstClus := c, curClus := c } ep3 ∧ OnChain ep3 [c] ∧
      freeCount v3 + 1 = freeCount v ∧ ∀ k, SameBytes v v3 (chain k) := by
  obtain ⟨v1, c, ha, hc, hcount⟩ := allocClus_total hw.reserved h1 hfree
  have hl1 := allocClus_later ha
  have hw1 := hw.start hj ha hc
  have hc0 : c ≠ 0 := by
    have := hc.1
    omega
  have hself : update chain j [c] j = [c] := update_self _ _ _
  have he1 : OnChain { ep with firstClus := c, curClus := c } (update chain j [c] j) := by
    rw [hself]
    exact ⟨by simp [hc0], fun _ ↦ by simp [hcnt]⟩
  obtain ⟨v2, ep2, hput2, hw2, hr2, hg2, hs2, ho2, hf2, hb2⟩ := putSlot_child hw1
    (hl1.used hw.reserved 1 h1) hself he1 hc0 (show 0 ≤ 32 by decide) rfl
    (length_sne attrDirectory c 0 (length_dotName 0))
  have hc2 : ep2.firstClus ≠ 0 := by
    rw [hs2]
    exact hc0
  obtain ⟨v3, ep3, hput3, hw3, hr3, hg3, hs3, ho3, hf3, hb3⟩ := putSlot_child hw2 hr2 hself ho2 hc2
    (Nat.le_refl 32) rfl (length_sne attrDirectory dp.firstClus 0 (length_dotName 32))
  refine ⟨v1, v2, v3, c, ep2, ep3, ha, ?_, ?_, hw3, hr3, hg3.trans (hg2.trans hl1.geom), hc,
    hs2.trans hs3, hself ▸ ho3, by omega, fun k ↦ ?_⟩
  · have hdir1 : ({ ep with firstClus := c, curClus := c } : Dirent).attr &&& attrDirectory ≠ 0 :=
      hdir
    rw [emake_eq_made hdir1 rfl, madeItem, if_pos (by decide)]
    exact hput2
  · have hdir2 : ep2.attr &&& attrDirectory ≠ 0 := by
      rw [hs2]
      exact hdir
    rw [emake_eq_made hdir2 rfl, madeItem, if_pos (by decide)]
    exact hput3
  · by_cases hk : k = j
    · rw [hk, hj]
      exact fun _ hx ↦ absurd hx List.not_mem_nil
    · have hb2' := hb2 k hk
      have hb3' := hb3 k hk
      rw [update_of_ne hk] at hb2' hb3'
      exact ((allocClus_sameBytes hw ha hc k).trans hb2' hl1.geom).trans hb3'
        (hg2.trans hl1.geom)

/-- An item was written behind the last entry of the directory `i`, over some of the deleted slots
`dels` at its end. -/
structure Entered (v : Volume) (chain : Nat → List Nat) (i : Nat) (dp : Dirent)
    (body : List DirItem) (dels : List (List UInt8)) (it : DirItem) (v' : Volume)
    (chain' : Nat → List Nat) (dp' : Dirent) : Prop where
  wf : FatWf v' chain'
  reserved : v'.fat 1 ≠ 0
  geom : v'.geom = v.geom
  pre : chain i <+: chain' i
  dir : LiveDir v' (chain' i) dp'
  entry : SameEntry dp dp'
  kept : ItemsFrom v' (chain' i) 0 body
  slots : SlotsAt v' (chain' i) (32 * (slotsOf body).length) it.slots
  whole : it.Wf → (∀ e ∈ entriesFrom (slotsOf body).length [it],
    e.2.2.filename.length ≤ fat32MaxFilename) →
    WholeDir v' (chain' i) (body ++ it :: (dels.drop it.slots.length).map .deleted)
  length : (chain' i).length ≤
    max (chain i).length (clustersFor v.geom (32 * ((slotsOf body).length + it.slots.length)))
  others : ∀ j, j ≠ i → chain j ≠ [] → chain' j = chain j ∧ SameBytes v v' (chain j)

variable {dp ep : Dirent} {body : List DirItem} {dels : List (List UInt8)}

/-- `emake` behind the last entry of a well-formed directory. -/
theorem emake_entered (hw : FatWf v chain) (h1 : v.fat 1 ≠ 0) (hd : LiveDir v (chain i) dp)
    (hdir : WholeDir v (chain i) (body ++ dels.map .deleted)) (he : Recordable ep)
    (hb : 32 * ((slotsOf body).length +
      (madeItem ep (32 * (slotsOf body).length)).slots.length) < 2 ^ 32)
    (hroom : clustersFor v.geom (32 * ((slotsOf body).length +
      (madeItem ep (32 * (slotsOf body).length)).slots.length)) - (chain i).length ≤ freeCount v) :
    ∃ v' dp' l, emake v dp ep (32 * (slotsOf body).length) = .ok (v', dp') ∧
      Entered v chain i dp body dels (madeItem ep (32 * (slotsOf body).length)) v'
        (update chain i l) dp' := by
  have hlen := madeItem_length ep (32 * (slotsOf body).length)
  have hbytes := madeItem_bytes he (32 * (slotsOf body).length)
  have hcount := longCount_le he.short
  generalize hit : madeItem ep (32 * (slotsOf body).length) = it at hb hroom hlen hbytes ⊢
  have hshort : it.slots.length < 2 ^ 27 := by
    rw [hlen]
    split_ifs <;> omega
  have hitems := hdir.image.items.left
  have hin := hitems.inside (Nat.zero_le _)
  rw [Nat.zero_add] at hin
  have hoff : ∀ j < it.slots.length,
      slotOff (32 * (slotsOf body).length) j = 32 * ((slotsOf body).length + j) :=
    fun j hj ↦ slotOff_mul (by omega)
  have hneed : ∀ j < it.slots.length, slotOff (32 * (slotsOf body).length) j / v.geom.bytsPerClus <
      clustersFor v.geom (32 * ((slotsOf body).length + it.slots.length)) := by
    intro j hj
    rw [hoff j hj]
    exact div_lt_clustersFor (by omega)
  obtain ⟨v', dp', l, hput, hp⟩ :=
    putSlots_total it.slots (i := i) (32 * (slotsOf body).length) _ hw h1
    hd.onChain hd.firstClus hbytes hshort (by omega) (by omega) hin hneed hroom
  have hg := hp.grown.geom
  have hchain : IsChain v' l := by
    have := hp.grown.wf.isChain i
    rwa [update_self] at this
  have hnodup : l.Nodup := by
    have := hp.grown.wf.forest.nodup i
    rwa [update_self] at this
  have hlive : LiveDir v' l dp' := by
    have hentry := hp.grown.entry
    refine ⟨hchain, hnodup, hp.grown.onChain, ?_, ?_, ?_⟩
    · rw [hentry]
      exact hd.firstClus
    · rw [hentry]
      exact hd.isDir
    · rw [hentry]
      exact hd.valid
  refine ⟨v', dp', l, ?_, hp.grown.wf, hp.reserved, hg, ?_, ?_, hp.grown.entry, ?_, ?_, ?_, ?_, ?_⟩
  · rw [emake_eq_made hd.isDir (by omega), hit]
    exact hput
  · rw [update_self]
    exact hp.pre
  · rw [update_self]
    exact hlive
  · rw [update_self]
    refine ⟨hitems.wf, fun j hj ↦ ?_, hitems.bound⟩
    obtain ⟨hjin, heq⟩ := hitems.slots j hj
    have hend := slot_end_le v.geom _ (slotOff_mod (by omega) _) hjin
    have hcap : (chain i).length * v.geom.bytsPerClus ≤ l.length * v.geom.bytsPerClus :=
      Nat.mul_le_mul_right _ hp.pre.length_le
    have hslot : slotOff (32 * 0) j = 32 * j := by
      have := slotOff_mul (p := 0) (n := j) (by omega)
      rwa [Nat.zero_add] at this
    rw [hg]
    refine ⟨by omega, ?_⟩
    rw [← heq]
    apply dirSlot_kept
    intro k hle hk
    apply hp.kept k (by omega)
    intro m hm
    rw [hoff m hm]
    omega
  · rw [update_self]
    intro j hj
    rw [hg]
    exact ⟨hp.inside j hj, hp.slots j hj⟩
  · rw [update_self]
    exact fun hwf hname ↦ hp.whole hdir hwf hname hb
  · rw [update_self]
    exact hp.length _ hneed
  · intro j hj _
    rw [update_of_ne hj]
    exact ⟨rfl, hp.others j hj⟩

/-- More bytes need no fewer clusters. -/
theorem clustersFor_mono {g : Geom} {x y : Nat} (h : x ≤ y) : clustersFor g x ≤ clustersFor g y :=
  Nat.div_le_div_right (by omega)

/-- `ealloc` of a name that is not there, behind the last entry of a well-formed directory. -/
theorem eallocNew_entered (kind : NodeKind) (k : Nat) {name : List UInt8} (hw : FatWf v chain)
    (h1 : v.fat 1 ≠ 0) (hd : LiveDir v (chain i) dp)
    (hdir : WholeDir v (chain i) (body ++ dels.map .deleted)) (hchars : ∀ c ∈ name, 0x20 ≤ c)
    (hfirst : ∀ c t, name = c :: t → c ≠ spaceCh ∧ c ≠ dotCh)
    (hb : 32 * ((slotsOf body).length + (longCount name + 1)) < 2 ^ 32)
    (hroom : (if kind = .dir then 1 else 0) + (clustersFor v.geom (32 * ((slotsOf body).length +
      (longCount name + 1))) - (chain i).length) ≤ freeCount v) :
    ∃ v' dp' ep' chain', eallocNew v k dp name kind.attr (32 * (slotsOf body).length) =
        .ok (v', dp', ep') ∧
      Entered v chain i { dp with ref := dp.ref + 1 } body dels
        (madeItem ep' (32 * (slotsOf body).length)) v' chain' dp' ∧
      Recordable ep' ∧ ep'.filename = name.take fat32MaxFilename ∧
      ep'.attr = eallocAttr kind.attr ∧ ep'.fileSize = 0 ∧ ep'.off = 32 * (slotsOf body).length ∧
      ep'.dirty = false ∧ ep'.valid = 1 ∧ ep'.ref = 1 := by
  have hmono := longCount_take name fat32MaxFilename
  have hrec : ∀ (c size : Nat) (e : Dirent), e.filename = name.take fat32MaxFilename →
      e.attr = eallocAttr kind.attr → e.firstClus = c → e.fileSize = size → c < 2 ^ 32 →
      size < 2 ^ 32 → Recordable e := by
    intro c size e hname hattr hclus hsize hc hs
    refine ⟨?_, ?_, ?_, ⟨kind, hattr⟩, hclus ▸ hc, hsize ▸ hs⟩
    · rw [hname]
      exact fun b hb ↦ hchars b (List.mem_of_mem_take hb)
    · rw [hname]
      intro b t hbt
      cases name with
      | nil => cases hbt
      | cons x name =>
        obtain ⟨rfl, -⟩ := List.cons.inj hbt
        exact hfirst x name rfl
    · rw [hname, List.length_take]
      exact Nat.min_le_left _ _
  have hlen : ∀ e : Dirent, e.filename = name.take fat32MaxFilename →
      (madeItem e (32 * (slotsOf body).length)).slots.length ≤ longCount name + 1 := by
    intro e hname
    rw [madeItem_length, hname]
    split_ifs <;> omega
  have hd0 : LiveDir v (chain i) { dp with ref := dp.ref + 1 } :=
    ⟨hd.chain, hd.nodup, ⟨hd.onChain.head, hd.onChain.cursor⟩, hd.firstClus, hd.isDir, hd.valid⟩
  by_cases hkind : kind = .dir
  · subst hkind
    rw [if_pos rfl] at hroom
    obtain ⟨j, hji, hj⟩ := hw.exists_nil i
    obtain ⟨v1, v2, v3, c, ep2, ep3, ha, hm1, hm2, hw3, hr3, hg3, hc, hs3, ho3, hf3, hb3⟩ :=
      makeDots hw h1 hj (by omega)
        ({
          filename := name.take fat32MaxFilename, attr := eallocAttr NodeKind.dir.attr,
          off := 32 * (slotsOf body).length, parent := some k, ref := 1 } : Dirent)
        { dp with ref := dp.ref + 1 }
        (show eallocAttr NodeKind.dir.attr &&& attrDirectory ≠ 0 by decide) rfl
    have hclus : c < 2 ^ 32 := hc.lt_eoc.trans (by decide)
    have hi3 : update chain j [c] i = chain i := update_of_ne hji.symm _ _
    have hdir3 := hdir.sameBytes (hb3 i) hg3
    have hd3 : LiveDir v3 (chain i) { dp with ref := dp.ref + 1 } := by
      have := hw3.isChain i
      rw [hi3] at this
      exact { hd0 with chain := this }
    have hname3 : ep3.filename = name.take fat32MaxFilename := by rw [hs3]
    have hrec3 : Recordable ep3 := by
      apply hrec c 0 ep3 hname3
      · rw [hs3]
      · rw [hs3]
      · rw [hs3]
      · exact hclus
      · exact Nat.two_pow_pos 32
    have hlen3 := hlen ep3 hname3
    have hclus3 : clustersFor v.geom (32 * ((slotsOf body).length +
        (madeItem ep3 (32 * (slotsOf body).length)).slots.length)) ≤
        clustersFor v.geom (32 * ((slotsOf body).length + (longCount name + 1))) :=
      clustersFor_mono (by omega)
    rw [← hi3] at hdir3 hd3
    obtain ⟨v4, dp4, l, hm4, hent⟩ := emake_entered hw3 hr3 hd3 hdir3 hrec3 (by omega) (by
      rw [hi3, hg3]
      omega)
    have hlong := hent.length
    have hpre := hent.pre
    rw [hi3] at hpre
    rw [hi3, hg3] at hlong
    refine ⟨v4, dp4, { ep3 with valid := 1 }, _, ?_, ⟨hent.wf, hent.reserved, hent.geom.trans hg3,
      hpre, hent.dir, hent.entry, hent.kept, hent.slots, hent.whole, hlong, fun m hmi hm ↦ ?_⟩,
      hrec c 0 _ hname3 (by rw [hs3]) (by rw [hs3]) (by rw [hs3]) hclus (Nat.two_pow_pos 32),
        hname3,
      by rw [hs3], by rw [hs3], by rw [hs3], by rw [hs3], rfl, by rw [hs3]⟩
    · unfold eallocNew
      dsimp only
      rw [if_pos (by rfl), ha]
      simp only [bind, Except.bind]
      rw [hm1]
      simp only
      rw [hm2]
      simp only
      rw [hm4]
      rfl
    · have hmj : m ≠ j := by
        rintro rfl
        exact hm hj
      have hm3 : update chain j [c] m = chain m := update_of_ne hmj _ _
      obtain ⟨hsame, hbytes⟩ := hent.others m hmi (by rwa [hm3])
      rw [hm3] at hsame hbytes
      exact ⟨hsame, (hb3 m).trans hbytes hg3⟩
  · rw [if_neg hkind, Nat.zero_add] at hroom
    have hattr : kind.attr ≠ attrDirectory := by
      cases kind with
      | dir => exact absurd rfl hkind
      | device => decide
      | file ro => cases ro <;> decide
    generalize hep : ({
        filename := name.take fat32MaxFilename, attr := eallocAttr kind.attr,
        off := 32 * (slotsOf body).length, parent := some k, ref := 1 } : Dirent) = ep
    have hname : ep.filename = name.take fat32MaxFilename := by rw [← hep]
    have hrecord : Recordable ep := by
      apply hrec 0 0 ep hname
      · rw [← hep]
      · rw [← hep]
      · rw [← hep]
      · exact Nat.two_pow_pos 32
      · exact Nat.two_pow_pos 32
    have hlen' := hlen ep hname
    have hclus : clustersFor v.geom (32 * ((slotsOf body).length +
        (madeItem ep (32 * (slotsOf body).length)).slots.length)) ≤
        clustersFor v.geom (32 * ((slotsOf body).length + (longCount name + 1))) :=
      clustersFor_mono (by omega)
    obtain ⟨v', dp', l, hm, hent⟩ := emake_entered hw h1 hd0 hdir hrecord (by omega) (by omega)
    refine ⟨v', dp', { ep with valid := 1 }, _, ?_, hent,
      ⟨hrecord.chars, hrecord.first, hrecord.short, hrecord.attr, hrecord.clus, hrecord.size⟩,
        hname,
      by rw [← hep], by rw [← hep], by rw [← hep], by rw [← hep], rfl, by rw [← hep]⟩
    unfold eallocNew
    dsimp only
    rw [if_neg hattr, hep, hm, ← hep]
    rfl

end

end Xv6K210.Fs
