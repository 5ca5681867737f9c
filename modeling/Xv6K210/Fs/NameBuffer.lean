import Xv6K210.Fs.RoundTrip

/-!
# The name buffer of an entry

Source `kernel/fs/fat32.c:732–825` and `kernel/libc/string.c:106–113`. Which positions
from `ep->filename` on `enext` stores to. The array ends at position 255, the attribute follows at
256 and three bytes of padding behind it.
-/

namespace Xv6K210.Fs

open Xv6K210.Base

/-! ### The positions stored to -/

/-- The positions that `snstr` stores to, in order. -/
def snstrPlaces (dst : Nat) : List UInt8 → List Nat
  | lo :: hi :: src =>
    if lo = 0 ∧ hi = 0 then List.range' dst (src.length / 2)
    else dst :: snstrPlaces (dst + 1) src
  | _ => []

/-- The positions that the long branch of `read_entry_name` stores to. -/
def longPlaces (dst : Nat) (de : List UInt8) : List Nat :=
  snstrPlaces dst ((de.drop 1).take 10) ++ snstrPlaces (dst + 5) ((de.drop 14).take 12) ++
    snstrPlaces (dst + 11) ((de.drop 28).take 4)

/-- The positions that the short branch of `read_entry_name` stores to. -/
def shortPlaces (de : List UInt8) : List Nat :=
  List.range (charShortName + 2) ++ List.range (shortNameBytes de).length

/-- The stores stay inside the units of the source. -/
theorem snstrPlaces_range : ∀ (src : List UInt8) (dst : Nat) {x : Nat},
    x ∈ snstrPlaces dst src → dst ≤ x ∧ x < dst + src.length / 2
  | [], dst, x, h => absurd h List.not_mem_nil
  | [_], dst, x, h => absurd h List.not_mem_nil
  | lo :: hi :: src, dst, x, h => by
    rw [snstrPlaces] at h
    simp only [List.length_cons]
    split at h
    · rw [List.mem_range'_1] at h
      omega
    · rcases List.mem_cons.mp h with rfl | h
      · omega
      · have := snstrPlaces_range src (dst + 1) h
        omega

/-- A group has 13 positions. -/
theorem longPlaces_range {de : List UInt8} {dst x : Nat} (h : x ∈ longPlaces dst de) :
    dst ≤ x ∧ x < dst + charLongName := by
  simp only [longPlaces, List.mem_append] at h
  simp only [charLongName]
  rcases h with (h | h) | h
  · have := snstrPlaces_range _ _ h
    simp only [List.length_take] at this
    omega
  · have := snstrPlaces_range _ _ h
    simp only [List.length_take] at this
    omega
  · have := snstrPlaces_range _ _ h
    simp only [List.length_take] at this
    omega

/-- The short branch copies at most eight characters, a point and three characters. -/
theorem length_shortNameBytes (de : List UInt8) : (shortNameBytes de).length ≤ 12 := by
  simp only [shortNameBytes, List.length_append]
  have h1 := (List.takeWhile_sublist (p := fun x ↦ decide (x ≠ spaceCh))
    (l := (de.take 11).take 8)).length_le
  have h2 := (List.takeWhile_sublist (p := fun x ↦ decide (x ≠ spaceCh))
    (l := (de.take 11).drop 8)).length_le
  simp only [List.length_take, List.length_drop] at h1 h2
  split
  · simp only [List.length_nil]
    omega
  · simp only [List.length_cons]
    omega

private theorem shortPlaces_range {de : List UInt8} {x : Nat} (h : x ∈ shortPlaces de) :
    x < 13 := by
  have := length_shortNameBytes de
  simp only [shortPlaces, List.mem_append, List.mem_range, charShortName] at h
  omega

private theorem readShortName_of_not_mem {de : List UInt8} {buf : ByteMem} {x : Nat}
    (h : x ∉ shortPlaces de) : readShortName buf de x = buf x := by
  simp only [shortPlaces, List.mem_append, List.mem_range, not_or] at h
  rw [readShortName, store_apply_of_not_mem _ _ _ _ (by omega),
    fill_apply_of_not_mem _ _ (by omega)]

/-! ### `enext` with its stores -/

/-- The outcome of `enext` with the memory from `ep->filename` on at its end, and the positions of
that memory that the name was stored to. -/
structure NameRun where
  out : Except Panic EnextOut
  mem : ByteMem
  log : List Nat

/-- The loop of `enext` with its stores. -/
def enextLoopRun (v : Volume) (ep : Dirent) : Nat → Dirent → ByteMem → List Nat → Nat → Nat →
    Bool → Option Nat → NameRun
  | 0, _, buf, log, _, _, _, _ => ⟨.error .enextDiverges, buf, log⟩
  | fuel + 1, dp, buf, log, off, cnt, live, count =>
    match enextSlot v dp off with
    | .error p => ⟨.error p, buf, log⟩
    | .ok (dp, de) =>
      let order := de.getD 0 0
      if de.length ≠ 32 ∨ order = endOfEntry then
        ⟨.ok ⟨dp, { ep with filename := nameOf buf, attr := buf 256 }, count, -1⟩, buf, log⟩
      else if order = emptyEntry then
        enextLoopRun v ep fuel dp buf log ((off + 32) % 2 ^ 32) (cnt + 1) live count
      else if cnt ≠ 0 then
        ⟨if live then .ok ⟨dp, { ep with filename := nameOf buf, attr := buf 256 }, some cnt, 0⟩
          else .error .nullCount, buf, log⟩
      else if slotAttr de = attrLongName then
        let lcnt := slotCount order
        let last : Bool := order &&& lastLongEntry ≠ 0
        if last && !live then ⟨.error .nullCount, buf, log⟩
        else if lcnt = 0 ∨ 20 < lcnt then ⟨.error .nameOutOfEntry, buf, log⟩
        else enextLoopRun v ep fuel dp (readLongName buf ((lcnt - 1) * charLongName) de)
          (log ++ longPlaces ((lcnt - 1) * charLongName) de) ((off + 32) % 2 ^ 32) cnt
          (live && !last) (if last then some (lcnt + 1) else count)
      else
        ⟨.ok ⟨dp, { ep with
          filename := nameOf (if live then readShortName buf de else buf)
          attr := slotAttr de
          firstClus := sneFirstClus de
          fileSize := sneFileSize de
          curClus := sneFirstClus de
          clusCnt := 0 }, if live then some 1 else count, 1⟩,
          if live then readShortName buf de else buf,
          if live then log ++ shortPlaces de else log⟩

/-- `enext` with its stores, of a directory that is valid. -/
def enextRun (v : Volume) (dp ep : Dirent) (off : Nat) (count : Option Nat) : NameRun :=
  let buf : ByteMem := fun x ↦ if x = 256 then ep.attr else 0
  enextLoopRun v ep (enextFuel v) dp buf (List.range (fat32MaxFilename + 1)) off 0 true count

/-- The stores are those of `enext`. -/
theorem enextLoopRun_out (v : Volume) (ep : Dirent) : ∀ (fuel : Nat) (dp : Dirent) (buf : ByteMem)
    (log : List Nat) (off cnt : Nat) (live : Bool) (count : Option Nat),
    (enextLoopRun v ep fuel dp buf log off cnt live count).out =
      enextLoop v ep fuel dp buf off cnt live count
  | 0, dp, buf, log, off, cnt, live, count => rfl
  | fuel + 1, dp, buf, log, off, cnt, live, count => by
    have ih := enextLoopRun_out v ep fuel
    rw [enextLoopRun, enextLoop]
    cases enextSlot v dp off with
    | error p => rfl
    | ok r =>
      dsimp only
      by_cases hend : r.2.length ≠ 32 ∨ r.2.getD 0 0 = endOfEntry
      · rw [if_pos hend, if_pos hend]
      rw [if_neg hend, if_neg hend]
      by_cases hempty : r.2.getD 0 0 = emptyEntry
      · rw [if_pos hempty, if_pos hempty]
        exact ih ..
      rw [if_neg hempty, if_neg hempty]
      by_cases hcnt : cnt ≠ 0
      · rw [if_pos hcnt, if_pos hcnt]
      rw [if_neg hcnt, if_neg hcnt]
      by_cases hlong : slotAttr r.2 = attrLongName
      · rw [if_pos hlong, if_pos hlong]
        split
        · rfl
        · split
          · rfl
          · exact ih ..
      · rw [if_neg hlong, if_neg hlong]

/-! ### Directories that `emake` wrote -/

/-- What a directory is made of: entries with a long name, slots with a short name alone, as those
of `.` and `..`, and slots of deleted entries. -/
inductive MadeItem where
  | made (ep : Dirent)
  | short (de : List UInt8)
  | deleted (de : List UInt8)

/-- The slots of an item. -/
def MadeItem.slots : MadeItem → List (List UInt8)
  | made ep => entrySlots ep
  | short de => [de]
  | deleted de => [de]

/-- An entry has a name of 1 to 255 characters, the attributes of no long-name slot, and fields in
their ranges. -/
def MadeItem.Wf : MadeItem → Prop
  | made ep => 1 ≤ ep.filename.length ∧ ep.filename.length ≤ fat32MaxFilename ∧
      (∀ c ∈ ep.filename, c ≠ 0) ∧ ep.attr ≠ attrLongName ∧ ep.firstClus < 2 ^ 32 ∧
      ep.fileSize < 2 ^ 32
  | short de => de.length = 32 ∧ de.getD 0 0 ≠ endOfEntry ∧ de.getD 0 0 ≠ emptyEntry ∧
      slotAttr de ≠ attrLongName
  | deleted de => de.length = 32 ∧ de.getD 0 0 = emptyEntry

/-- The slots of some items. -/
def madeSlots (items : List MadeItem) : List (List UInt8) := items.flatMap MadeItem.slots

/-- The chain `l` holds the items from its start on. -/
structure MadeDir (v : Volume) (l : List Nat) (items : List MadeItem) : Prop where
  wf : ∀ it ∈ items, it.Wf
  slots : SlotsAt v l 0 (madeSlots items)
  bound : 32 * (madeSlots items).length < 2 ^ 32

section Runs

variable {v : Volume} {l : List Nat} {dp ep : Dirent} {fuel off cnt : Nat} {buf : ByteMem}
variable {log : List Nat} {live : Bool} {count : Option Nat}

/-- Behind an empty slot no name is stored. -/
theorem enextLoopRun_counting : ∀ (fuel : Nat) (dp : Dirent) (off cnt : Nat), cnt ≠ 0 →
    (enextLoopRun v ep fuel dp buf log off cnt live count).mem = buf ∧
      (enextLoopRun v ep fuel dp buf log off cnt live count).log = log
  | 0, dp, off, cnt, _ => ⟨rfl, rfl⟩
  | fuel + 1, dp, off, cnt, h => by
    simp only [enextLoopRun]
    cases enextSlot v dp off with
    | error p => exact ⟨rfl, rfl⟩
    | ok r =>
      dsimp only
      split
      · exact ⟨rfl, rfl⟩
      · split
        · exact enextLoopRun_counting fuel _ _ _ (Nat.succ_ne_zero cnt)
        · exact ⟨rfl, rfl⟩

/-- Behind the first slot of an entry only long-name slots store characters. -/
theorem enextLoopRun_notLive {dp' : Dirent} {de : List UInt8}
    (h : enextSlot v dp off = .ok (dp', de)) (ha : slotAttr de ≠ attrLongName) :
    (enextLoopRun v ep (fuel + 1) dp buf log off 0 false count).mem = buf ∧
      (enextLoopRun v ep (fuel + 1) dp buf log off 0 false count).log = log := by
  simp only [enextLoopRun, h]
  split
  · exact ⟨rfl, rfl⟩
  · split
    · exact enextLoopRun_counting _ _ _ _ (Nat.succ_ne_zero 0)
    · exact ⟨rfl, rfl⟩

/-- The positions of all groups of a name. -/
def longsPlaces : List (List UInt8) → List Nat
  | [] => []
  | de :: des => longPlaces (des.length * charLongName) de ++ longsPlaces des

/-- `enext` on the long-name slots, with its stores. -/
theorem enextLoopRun_longs (ep : Dirent) (hl : IsChain v l) {entcnt : Nat} (hent : entcnt ≤ 20)
    (c0 : Option Nat) (rest : List (List UInt8)) (fuel : Nat) :
    ∀ (longs : List (List UInt8)) {dp : Dirent} (buf : ByteMem) (log : List Nat) {off : Nat},
    longs.length ≤ entcnt → LongRun entcnt longs → OnChain dp l → dp.firstClus ≠ 0 →
    off % 32 = 0 → off < 2 ^ 32 → SlotsAt v l off (longs ++ rest) →
    ∃ dp', enextLoopRun v ep (fuel + longs.length) dp buf log off 0
        (decide (longs.length = entcnt)) (if longs.length = entcnt then c0 else some (entcnt + 1)) =
        enextLoopRun v ep fuel dp' (readLongs longs buf) (log ++ longsPlaces longs)
          (slotOff off longs.length) 0 (decide (0 = entcnt))
          (if 0 = entcnt then c0 else some (entcnt + 1)) ∧
      dp'.firstClus ≠ 0 ∧ OnChain dp' l ∧ SlotsAt v l (slotOff off longs.length) rest
  | [], dp, buf, log, off, _, _, ho, hf, _, hlt, hs => by
    refine ⟨dp, ?_, hf, ho, ?_⟩
    · rw [List.length_nil, slotOff_zero hlt, longsPlaces, List.append_nil]
      rfl
    · rw [List.length_nil, slotOff_zero hlt]
      exact hs
  | de :: des, dp, buf, log, off, hk, hrun, ho, hf, ha, hlt, hs => by
    obtain ⟨hlen, hattr, horder, hdes⟩ := hrun
    rw [List.length_cons] at hk
    rw [List.cons_append] at hs
    obtain ⟨hin, hslot⟩ := hs.head hlt
    obtain ⟨dp1, hread, hse, ho1⟩ := enextSlot_inside hl ho hf ha hin
    obtain ⟨hne0, hneE, hcnt, hlast⟩ := orderByte_spec entcnt (des.length + 1) (by omega) (by omega)
    have hf1 : dp1.firstClus ≠ 0 := by
      rw [hse]
      exact hf
    obtain ⟨dp', hloop, hf', ho', hrest⟩ := enextLoopRun_longs ep hl hent c0 rest fuel des
      (readLongName buf (des.length * charLongName) de)
      (log ++ longPlaces (des.length * charLongName) de) (by omega) hdes ho1 hf1
      (show (off + 32) % 2 ^ 32 % 32 = 0 by omega) (by omega) hs.tail
    rw [slotOff_succ] at hloop hrest
    refine ⟨dp', ?_, hf', ho', hrest⟩
    have hknot : ¬ des.length = entcnt := by omega
    rw [List.length_cons, show fuel + (des.length + 1) = fuel + des.length + 1 by omega,
      enextLoopRun, hread]
    simp only [hslot, hlen, horder, hattr, hcnt, hlast, hne0, hneE, ne_eq, not_true_eq_false,
      or_self, if_false, if_true]
    rw [Bool.and_not_self, if_neg Bool.false_ne_true, if_neg (by omega), Nat.add_sub_cancel]
    have hcount : (if decide (des.length + 1 = entcnt) = true then some (des.length + 1 + 1)
        else if des.length + 1 = entcnt then c0 else some (entcnt + 1)) = some (entcnt + 1) := by
      by_cases hke : des.length + 1 = entcnt
      · simp [hke]
      · simp [hke]
    rw [hcount]
    rw [decide_eq_false hknot, if_neg hknot, List.append_assoc] at hloop
    exact hloop

end Runs

/-- The groups of a name stay below the end of the first ones, and the twentieth one reaches
behind the array, since no name fills it. -/
theorem longsPlaces_range (name : List UInt8) (ck : UInt8) (entcnt : Nat) : ∀ (k : Nat) {x : Nat},
    x ∈ longsPlaces (longSlots name ck entcnt k) → x < k * charLongName
  | 0, x, h => absurd h List.not_mem_nil
  | k + 1, x, h => by
    rw [longSlots, longsPlaces, length_longSlots, List.mem_append] at h
    simp only [charLongName] at h ⊢
    rcases h with h | h
    · have := longPlaces_range h
      simp only [charLongName] at this
      omega
    · have := longsPlaces_range name ck entcnt k h
      simp only [charLongName] at this
      omega

/-- The last unit but one of a group that its name does not reach. -/
theorem mem_longPlaces_last (order ck : UInt8) {p : List UInt8} (hp : p.length < 11) (dst : Nat) :
    dst + 11 ∈ longPlaces dst (lne order ck (lneChars charLongName p)) := by
  have hlen := length_lneChars charLongName p
  simp only [charLongName, Nat.reduceMul] at hlen
  obtain ⟨-, -, -, -, -, h3⟩ := lne_fields order ck hlen
  rw [longPlaces, List.mem_append]
  right
  rw [h3]
  have hlow := (getD_lneChars 13 11 p (by decide)).1
  rw [if_neg (by omega), if_neg (by omega)] at hlow
  have hcons : ∃ lo hi src, (lneChars 13 p).drop 22 = lo :: hi :: src ∧ lo = 0xff := by
    have hd := List.length_drop (i := 22) (l := lneChars 13 p)
    rw [hlen] at hd
    match hm : (lneChars 13 p).drop 22, hd with
    | lo :: hi :: src, _ =>
      refine ⟨lo, hi, src, rfl, ?_⟩
      have hget : ((lneChars 13 p).drop 22).getD 0 0 = (lneChars 13 p).getD 22 0 := by
        rw [List.getD_eq_getElem?_getD, List.getElem?_drop, List.getD_eq_getElem?_getD]
      rw [hm, List.getD_cons_zero] at hget
      exact hget.trans hlow
  obtain ⟨lo, hi, src, heq, hlo⟩ := hcons
  rw [heq, snstrPlaces, if_neg]
  · exact List.mem_cons_self
  · rw [hlo]
    exact fun h ↦ absurd h.1 (by decide)

/-! ### One call -/

/-- The name that a call of `enext` stores stays inside of the array, and a zero ends it. -/
def NameInside (r : NameRun) : Prop :=
  (∀ x ∈ r.log, x ≤ fat32MaxFilename) ∧ ∃ x ≤ fat32MaxFilename, r.mem x = 0

/-- An entry takes at most 19 groups. -/
def MadeItem.Fits : MadeItem → Prop
  | made ep => ep.filename.length ≤ 19 * charLongName
  | _ => True

section Call

variable {v : Volume} {l : List Nat} {dp ep : Dirent} {pre post : List MadeItem}

/-- The recorded stores are those of the call. -/
theorem enextRun_out (hd : LiveDir v l dp) (he : ep.valid = 0) {off : Nat} (ha : off % 32 = 0)
    (count : Option Nat) : (enextRun v dp ep off count).out = enext v dp ep off count := by
  rw [enext_eq count hd he ha, enextRun]
  exact enextLoopRun_out ..

private theorem madeSlots_append (xs ys : List MadeItem) :
    madeSlots (xs ++ ys) = madeSlots xs ++ madeSlots ys := List.flatMap_append

/-- The slots of an item behind others. -/
theorem MadeDir.at {it : MadeItem} (h : MadeDir v l (pre ++ it :: post)) :
    it.Wf ∧ 32 * (madeSlots pre).length < 2 ^ 32 ∧
      SlotsAt v l (32 * (madeSlots pre).length) (it.slots ++ madeSlots post) := by
  have hs := h.slots
  have hb := h.bound
  have hcons : madeSlots (it :: post) = it.slots ++ madeSlots post := List.flatMap_cons ..
  rw [madeSlots_append, hcons] at hs hb
  rw [List.length_append] at hb
  have hat := slotsAt_append hs
  rw [slotOff, Nat.zero_add, Nat.mod_eq_of_lt (by omega)] at hat
  exact ⟨h.wf it (List.mem_append_right _ List.mem_cons_self), by omega, hat⟩

/-- The memory that `enext` starts with. -/
def clearedName (ep : Dirent) : ByteMem := fun x ↦ if x = 256 then ep.attr else 0

/-- At an entry with a long name the groups are stored, and nothing else. -/
theorem enextRun_made (ep : Dirent) (hd : LiveDir v l dp) {e : Dirent}
    (h : MadeDir v l (pre ++ .made e :: post)) (count : Option Nat) :
    (enextRun v dp ep (32 * (madeSlots pre).length) count).mem =
        readLongs (longSlots e.filename (calChecksum (generateShortname e.filename))
          (longCount e.filename) (longCount e.filename)) (clearedName ep) ∧
      (enextRun v dp ep (32 * (madeSlots pre).length) count).log =
        List.range (fat32MaxFilename + 1) ++
          longsPlaces (longSlots e.filename (calChecksum (generateShortname e.filename))
            (longCount e.filename) (longCount e.filename)) := by
  obtain ⟨⟨hpos, hmax, -, hattr, hclus, hsize⟩, hlt, hs⟩ := h.at
  have hcnt := longCount_bounds hpos hmax
  generalize hp : (madeSlots pre).length = p at hlt hs ⊢
  generalize hlongs : longSlots e.filename (calChecksum (generateShortname e.filename))
    (longCount e.filename) (longCount e.filename) = longs
  have hlen : longs.length = longCount e.filename := by
    rw [← hlongs]
    exact length_longSlots ..
  have hrun : LongRun (longCount e.filename) longs := by
    rw [← hlongs]
    exact longRun_longSlots ..
  generalize hshort : sne (generateShortname e.filename) e.attr e.firstClus e.fileSize = short at *
  have hslots : (MadeItem.made e).slots = longs ++ [short] := by
    rw [← hlongs, ← hshort]
    rfl
  rw [hslots, List.append_assoc, List.singleton_append] at hs
  -- the last slot is inside of the chain, so there are rounds enough
  have hin := (hs longs.length (by simp)).1
  have hbound := h.bound
  rw [madeSlots_append, List.length_append, hp] at hbound
  have hcons : (madeSlots (MadeItem.made e :: post)).length =
      longs.length + 1 + (madeSlots post).length := by
    rw [madeSlots, List.flatMap_cons, List.length_append, hslots, List.length_append]
    rfl
  rw [hcons] at hbound
  rw [slotOff_mul (by omega)] at hin
  have hfuel := enextFuel_image hd.chain hd.nodup (Nat.le_of_lt hin)
  obtain ⟨fuel, hf⟩ : ∃ fuel, enextFuel v = fuel + 1 + longs.length :=
    ⟨enextFuel v - 1 - longs.length, by omega⟩
  obtain ⟨dp', hloop, hfc, hon, hrest⟩ := enextLoopRun_longs ep hd.chain hcnt.2 count
    (short :: madeSlots post) (fuel + 1) longs (clearedName ep)
    (List.range (fat32MaxFilename + 1)) (Nat.le_of_eq hlen) hrun hd.onChain hd.firstClus
    (Nat.mul_mod_right 32 p) hlt hs
  rw [hlen, if_pos rfl, decide_eq_true rfl, ← hlen, decide_eq_false (by omega)] at hloop
  have hoff : slotOff (32 * p) longs.length % 32 = 0 := slotOff_mod (Nat.mul_mod_right 32 p) _
  have hofflt : slotOff (32 * p) longs.length < 2 ^ 32 := Nat.mod_lt _ (by decide)
  obtain ⟨hin', hslot⟩ := hrest.head hofflt
  obtain ⟨dp1, hread, -, -⟩ := enextSlot_inside hd.chain hon hfc hoff hin'
  have hsa : slotAttr (dirSlot v l (slotOff (32 * p) longs.length)) ≠ attrLongName := by
    rw [hslot, ← hshort,
      (sne_fields e.attr (length_generateShortname e.filename) hclus hsize).2.2.1]
    exact hattr
  rw [enextRun, hf]
  change (enextLoopRun v ep (fuel + 1 + longs.length) dp (clearedName ep) _ _ 0 true count).mem =
    _ ∧
    (enextLoopRun v ep (fuel + 1 + longs.length) dp (clearedName ep) _ _ 0 true count).log = _
  rw [hloop]
  exact enextLoopRun_notLive hread hsa

/-- At a short name alone its characters are stored. -/
theorem enextRun_short (ep : Dirent) (hd : LiveDir v l dp) {de : List UInt8}
    (h : MadeDir v l (pre ++ .short de :: post)) (count : Option Nat) :
    (enextRun v dp ep (32 * (madeSlots pre).length) count).mem =
        readShortName (clearedName ep) de ∧
      (enextRun v dp ep (32 * (madeSlots pre).length) count).log =
        List.range (fat32MaxFilename + 1) ++ shortPlaces de := by
  obtain ⟨⟨hlen, h0, hE, hattr⟩, hlt, hs⟩ := h.at
  obtain ⟨hin, hslot⟩ := SlotsAt.head hs hlt
  obtain ⟨dp1, hread, -, -⟩ := enextSlot_inside hd.chain hd.onChain hd.firstClus
    (Nat.mul_mod_right 32 _) hin
  have hfuel := enextFuel_image hd.chain hd.nodup (Nat.le_of_lt hin)
  obtain ⟨fuel, hf⟩ : ∃ fuel, enextFuel v = fuel + 1 := ⟨enextFuel v - 1, by omega⟩
  rw [hslot] at hread
  simp only [enextRun, hf, enextLoopRun, hread]
  rw [if_neg (not_or.mpr ⟨not_not.mpr hlen, h0⟩), if_neg hE, if_neg (not_not.mpr rfl), if_neg hattr]
  exact ⟨rfl, rfl⟩

/-- At a deleted slot nothing is stored. -/
theorem enextRun_deleted (ep : Dirent) (hd : LiveDir v l dp) {de : List UInt8}
    (h : MadeDir v l (pre ++ .deleted de :: post)) (count : Option Nat) :
    (enextRun v dp ep (32 * (madeSlots pre).length) count).mem = clearedName ep ∧
      (enextRun v dp ep (32 * (madeSlots pre).length) count).log =
        List.range (fat32MaxFilename + 1) := by
  obtain ⟨⟨hlen, hE⟩, hlt, hs⟩ := h.at
  obtain ⟨hin, hslot⟩ := SlotsAt.head hs hlt
  obtain ⟨dp1, hread, -, -⟩ := enextSlot_inside hd.chain hd.onChain hd.firstClus
    (Nat.mul_mod_right 32 _) hin
  have hfuel := enextFuel_image hd.chain hd.nodup (Nat.le_of_lt hin)
  obtain ⟨fuel, hf⟩ : ∃ fuel, enextFuel v = fuel + 1 := ⟨enextFuel v - 1, by omega⟩
  rw [hslot] at hread
  have h0 : ¬ (de.length ≠ 32 ∨ de.getD 0 0 = endOfEntry) := by
    rw [hE]
    exact not_or.mpr ⟨not_not.mpr hlen, by decide⟩
  simp only [enextRun, hf, enextLoopRun, hread]
  rw [if_neg h0, if_pos hE]
  exact enextLoopRun_counting _ _ _ _ (Nat.succ_ne_zero 0)

private theorem cleared_zero {x : Nat} (h : x ≤ fat32MaxFilename) : clearedName ep x = 0 := by
  simp only [fat32MaxFilename] at h
  exact if_neg (by omega)

/-- The zero behind the name is in the array for every name of up to 255 characters. -/
theorem made_terminated {e : Dirent} (h : (MadeItem.made e).Wf) (ck : UInt8) (entcnt k : Nat) :
    ∃ x ≤ fat32MaxFilename,
      readLongs (longSlots e.filename ck entcnt k) (clearedName ep) x = 0 := by
  obtain ⟨-, hmax, hzero, -⟩ := h
  exact ⟨e.filename.length, hmax, (readLongs_longSlots hzero ck entcnt k (clearedName ep)).2.2 _
    rfl (cleared_zero hmax)⟩

/-- An entry with a twentieth group has a store behind the array. -/
theorem made_outside {e : Dirent} (h : (MadeItem.made e).Wf)
    (hbig : ¬ (MadeItem.made e).Fits) (ck : UInt8) :
    ∃ x ∈ longsPlaces (longSlots e.filename ck (longCount e.filename) (longCount e.filename)),
      fat32MaxFilename < x := by
  obtain ⟨-, hmax, -⟩ := h
  simp only [MadeItem.Fits, charLongName] at hbig
  simp only [fat32MaxFilename] at hmax
  have hcnt : longCount e.filename = 19 + 1 := by
    simp only [longCount, charLongName]
    omega
  have hdrop : (e.filename.drop (19 * charLongName)).length < 11 := by
    simp only [List.length_drop, charLongName]
    omega
  rw [hcnt, longSlots, longsPlaces, length_longSlots]
  exact ⟨_, List.mem_append_left _ (mem_longPlaces_last _ ck hdrop _), by decide⟩

/-- Decoding stays inside the name buffer of the entry, but for the twentieth group of a name of
248 to 255 characters; the array ends with a zero in any case. -/
theorem name_inside_iff (hd : LiveDir v l dp) (he : ep.valid = 0) {it : MadeItem}
    (h : MadeDir v l (pre ++ it :: post)) (count : Option Nat) :
    (enextRun v dp ep (32 * (madeSlots pre).length) count).out =
        enext v dp ep (32 * (madeSlots pre).length) count ∧
      (NameInside (enextRun v dp ep (32 * (madeSlots pre).length) count) ↔ it.Fits) := by
  refine ⟨enextRun_out hd he (Nat.mul_mod_right 32 _) count, ?_⟩
  have hrange : ∀ x ∈ List.range (fat32MaxFilename + 1), x ≤ fat32MaxFilename :=
    fun x hx ↦ Nat.le_of_lt_succ (List.mem_range.mp hx)
  have hwf := h.at.1
  cases it with
  | made e =>
    obtain ⟨hmem, hlog⟩ := enextRun_made ep hd h count
    rw [NameInside, hmem, hlog]
    constructor
    · rintro ⟨hin, -⟩
      by_contra hbig
      obtain ⟨x, hx, hlt⟩ := made_outside hwf hbig (calChecksum (generateShortname e.filename))
      exact absurd (hin x (List.mem_append_right _ hx)) (Nat.not_le_of_lt hlt)
    · intro hfit
      refine ⟨fun x hx ↦ ?_, made_terminated hwf _ _ _⟩
      rcases List.mem_append.mp hx with hx | hx
      · exact hrange x hx
      · have hlt := longsPlaces_range _ _ _ _ hx
        have hcnt : longCount e.filename ≤ 19 := by
          simp only [MadeItem.Fits, charLongName] at hfit
          simp only [longCount, charLongName]
          omega
        simp only [charLongName] at hlt
        simp only [fat32MaxFilename]
        omega
  | short de =>
    obtain ⟨hmem, hlog⟩ := enextRun_short ep hd h count
    rw [NameInside, hmem, hlog]
    refine iff_of_true ⟨fun x hx ↦ ?_, fat32MaxFilename, Nat.le_refl _, ?_⟩ trivial
    · rcases List.mem_append.mp hx with hx | hx
      · exact hrange x hx
      · have := shortPlaces_range hx
        simp only [fat32MaxFilename]
        omega
    · rw [readShortName_of_not_mem fun hx ↦ absurd (shortPlaces_range hx) (by decide)]
      exact cleared_zero (Nat.le_refl _)
  | deleted de =>
    obtain ⟨hmem, hlog⟩ := enextRun_deleted ep hd h count
    rw [NameInside, hmem, hlog]
    exact iff_of_true ⟨hrange, 0, Nat.zero_le _, cleared_zero (Nat.zero_le _)⟩ trivial

end Call

/-! ### A small directory -/

/-- A volume with clusters of 1024 bytes. -/
def slotsGeom : Geom where
  secPerClus := 2
  rsvdSecCnt := 1
  fatCnt := 1
  fatSz := 1
  totSec := 10
  rootClus := 2
  secPerClus_pos := by decide
  secPerClus_lt := by decide
  fatCnt_pos := smallGeom.fatCnt_pos
  totSec_lt := smallGeom.totSec_lt
  firstData_le := smallGeom.firstData_le
  fat_covers := by decide
  clus_lt_eoc := by decide

/-- A directory of up to 32 slots in cluster 2. -/
def slotsVolume (slots : List (List UInt8)) : Volume where
  geom := slotsGeom
  fat c := if 2 < c then 0 else fat32Eoc + 7
  card a := slots.flatten.getD (a - slotsGeom.clusAddr 2) 0

private theorem flatten_getD {k : Nat} (hk : k < 32) : ∀ (slots : List (List UInt8)) (j : Nat)
    (hj : j < slots.length), (∀ de ∈ slots, de.length = 32) →
    slots.flatten.getD (32 * j + k) 0 = (slots[j]).getD k 0
  | de :: slots, 0, _, h => by
    have hlen := h de List.mem_cons_self
    rw [List.flatten_cons, Nat.mul_zero, Nat.zero_add, List.getD_eq_getElem?_getD,
      List.getElem?_append_left (by omega), List.getD_eq_getElem?_getD]
    rfl
  | de :: slots, j + 1, hj, h => by
    have hlen := h de List.mem_cons_self
    have ih := flatten_getD hk slots j (Nat.lt_of_succ_lt_succ hj)
      fun d hd ↦ h d (List.mem_cons_of_mem de hd)
    rw [List.flatten_cons, List.getD_eq_getElem?_getD, List.getElem?_append_right (by omega), hlen,
      show 32 * (j + 1) + k - 32 = 32 * j + k by omega, ← List.getD_eq_getElem?_getD, ih]
    rfl

/-- The slots are those of the directory. -/
theorem slotsVolume_slots {slots : List (List UInt8)} (hlen : ∀ de ∈ slots, de.length = 32)
    (hfit : slots.length ≤ 32) : SlotsAt (slotsVolume slots) [2] 0 slots := by
  intro j hj
  have hoff : slotOff 0 j = 32 * j := by
    simp only [slotOff]
    omega
  have hbpc : slotsGeom.bytsPerClus = 1024 := rfl
  rw [hoff]
  constructor
  · change 32 * j < 1 * slotsGeom.bytsPerClus
    omega
  · have hj32 := hlen _ (List.getElem_mem hj)
    apply List.ext_getElem
    · rw [length_dirSlot, hj32]
    · intro k h1 h2
      rw [hj32] at h2
      have hget := flatten_getD h2 slots j hj hlen
      simp only [dirSlot, List.getElem_map, List.getElem_range, fileByte, slotsVolume]
      rw [hbpc, Nat.div_eq_of_lt (by omega), Nat.mod_eq_of_lt (by omega), List.getD_cons_zero,
        Nat.add_sub_cancel_left, hget, List.getD_eq_getElem?_getD,
        List.getElem?_eq_getElem (by omega)]
      rfl

private theorem slotsVolume_live (slots : List (List UInt8)) :
    LiveDir (slotsVolume slots) [2] smallRoot where
  chain := by
    have hfat : (slotsVolume slots).fat 2 = fat32Eoc + 7 := rfl
    have hrange : slotsGeom.InRange 2 := by decide
    refine ⟨⟨by rw [hfat]; decide, by rw [hfat]; decide⟩, fun c hc ↦ ?_⟩
    rw [List.mem_singleton.mp hc]
    exact hrange
  nodup := List.nodup_singleton 2
  onChain := ⟨rfl, fun _ ↦ rfl⟩
  firstClus := by decide
  isDir := by decide
  valid := rfl

/-- A file whose name is `n` times the letter a. -/
def namedFile (n : Nat) : Dirent :=
  { filename := List.replicate n 0x61, attr := attrArchive }

private theorem namedFile_dir {n : Nat} (h1 : 1 ≤ n) (h2 : n ≤ 255) :
    MadeDir (slotsVolume (madeSlots [.made (namedFile n)])) [2] [.made (namedFile n)] := by
  have hlen : (namedFile n).filename.length = n := List.length_replicate
  have hwf : (MadeItem.made (namedFile n)).Wf := by
    have hattr : attrArchive ≠ attrLongName := by decide
    have hzero : 0 < 2 ^ 32 := by decide
    refine ⟨by omega, by simp only [fat32MaxFilename]; omega, fun c hc ↦ ?_, hattr, hzero, hzero⟩
    rw [List.eq_of_mem_replicate hc]
    decide
  have hcnt : longCount (namedFile n).filename ≤ 20 :=
    (longCount_bounds (by omega) (by simp only [fat32MaxFilename]; omega)).2
  have hslots : madeSlots [.made (namedFile n)] = entrySlots (namedFile n) := List.append_nil _
  have hcount : (madeSlots [.made (namedFile n)]).length ≤ 21 := by
    rw [hslots, entrySlots, List.length_append, length_longSlots, List.length_singleton]
    omega
  refine ⟨fun it hit ↦ ?_, slotsVolume_slots (fun de hde ↦ ?_) (by omega), by omega⟩
  · rw [List.mem_singleton.mp hit]
    exact hwf
  · rw [hslots, entrySlots, List.mem_append, List.mem_singleton] at hde
    rcases hde with hde | rfl
    · exact longSlots_length _ _ _ _ de hde
    · exact (sne_fields _ (length_generateShortname _) hwf.2.2.2.2.1 hwf.2.2.2.2.2).1

/-- A name of 247 characters stays in the array. -/
theorem name_inside_247 :
    (enextRun (slotsVolume (madeSlots [.made (namedFile 247)])) smallRoot {} 0 none).out =
        enext (slotsVolume (madeSlots [.made (namedFile 247)])) smallRoot {} 0 none ∧
      NameInside
        (enextRun (slotsVolume (madeSlots [.made (namedFile 247)])) smallRoot {} 0 none) := by
  have h : MadeDir (slotsVolume (madeSlots [.made (namedFile 247)])) [2]
      ([] ++ MadeItem.made (namedFile 247) :: []) := namedFile_dir (by decide) (by decide)
  have hfit : (MadeItem.made (namedFile 247)).Fits :=
    Nat.le_of_eq (List.length_replicate (n := 247) (a := (0x61 : UInt8)))
  have hboth := @name_inside_iff _ _ smallRoot {} _ _ (slotsVolume_live _) rfl _ h none
  exact ⟨hboth.1, hboth.2.mpr hfit⟩

/-- A name of 248 characters is stored over the end of the array. -/
theorem not_name_inside_248 :
    LiveDir (slotsVolume (madeSlots [.made (namedFile 248)])) [2] smallRoot ∧
      MadeDir (slotsVolume (madeSlots [.made (namedFile 248)])) [2] [.made (namedFile 248)] ∧
      ¬ NameInside
        (enextRun (slotsVolume (madeSlots [.made (namedFile 248)])) smallRoot {} 0 none) := by
  have hdir := namedFile_dir (n := 248) (by decide) (by decide)
  have h : MadeDir (slotsVolume (madeSlots [.made (namedFile 248)])) [2]
      ([] ++ MadeItem.made (namedFile 248) :: []) := hdir
  refine ⟨slotsVolume_live _, hdir, fun hin ↦ ?_⟩
  have hbig : ¬ (MadeItem.made (namedFile 248)).Fits := by
    have hlen : (namedFile 248).filename.length = 248 := List.length_replicate
    simp only [MadeItem.Fits, hlen, charLongName]
    decide
  have hlog : (enextRun (slotsVolume (madeSlots [.made (namedFile 248)])) smallRoot {} 0 none).log =
      _ := (enextRun_made {} (slotsVolume_live _) h none).2
  obtain ⟨x, hx, hlt⟩ := made_outside h.at.1 hbig
    (calChecksum (generateShortname (namedFile 248).filename))
  have hle := hin.1 x (by rw [hlog]; exact List.mem_append_right _ hx)
  exact absurd hle (Nat.not_le_of_lt hlt)

end Xv6K210.Fs
