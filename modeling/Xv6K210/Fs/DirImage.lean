import Xv6K210.Fs.DirSlots

/-!
# Directory images

Source `kernel/fs/fat32.c:784–825` and the walks of `dirlookup`
(`fat32.c:835–881`) and `dirnext`. A well-formed directory is a sequence of deleted slots
and of live entries, each a run of long-name slots and one short-name slot, up to an end
mark or the end of the chain. `enext` yields exactly the live entries of such an image.
-/

namespace Xv6K210.Fs

open Xv6K210.Base

/-! ### Runs of long-name slots -/

/-- Order byte of long-name slot `i` of `entcnt`. -/
def orderByte (entcnt i : Nat) : UInt8 :=
  if i = entcnt then UInt8.ofNat i ||| lastLongEntry else UInt8.ofNat i

/-- The slots are the last groups of an entry with `entcnt` long-name slots. -/
def LongRun (entcnt : Nat) : List (List UInt8) → Prop
  | [] => True
  | de :: des => de.length = 32 ∧ slotAttr de = attrLongName ∧
      de.getD 0 0 = orderByte entcnt (des.length + 1) ∧ LongRun entcnt des

/-- The name buffer after a run of long-name slots was read. -/
def readLongs : List (List UInt8) → ByteMem → ByteMem
  | [], buf => buf
  | de :: des, buf => readLongs des (readLongName buf (des.length * charLongName) de)

/-- The slots `des` stand at `off` of the directory with chain `l`. -/
def SlotsAt (v : Volume) (l : List Nat) (off : Nat) (des : List (List UInt8)) : Prop :=
  ∀ j (h : j < des.length), slotOff off j < l.length * v.geom.bytsPerClus ∧
    dirSlot v l (slotOff off j) = des[j]

/-- What `enext` reads from an order byte. -/
theorem orderByte_spec (entcnt i : Nat) (h1 : 1 ≤ i) (h2 : i ≤ 20) :
    orderByte entcnt i ≠ endOfEntry ∧ orderByte entcnt i ≠ emptyEntry ∧
      slotCount (orderByte entcnt i) = i ∧
      decide (orderByte entcnt i &&& lastLongEntry ≠ 0) = decide (i = entcnt) := by
  have hall : ∀ i < 21, 1 ≤ i →
      (UInt8.ofNat i ≠ endOfEntry ∧ UInt8.ofNat i ≠ emptyEntry ∧ slotCount (UInt8.ofNat i) = i ∧
        UInt8.ofNat i &&& lastLongEntry = 0) ∧
      (UInt8.ofNat i ||| lastLongEntry ≠ endOfEntry ∧
        UInt8.ofNat i ||| lastLongEntry ≠ emptyEntry ∧
        slotCount (UInt8.ofNat i ||| lastLongEntry) = i ∧
        (UInt8.ofNat i ||| lastLongEntry) &&& lastLongEntry ≠ 0) := by
    decide +kernel
  obtain ⟨hplain, hlast⟩ := hall i (by omega) h1
  by_cases he : i = entcnt
  · simp only [orderByte, if_pos he]
    refine ⟨hlast.1, hlast.2.1, hlast.2.2.1, ?_⟩
    rw [decide_eq_true hlast.2.2.2, decide_eq_true he]
  · simp only [orderByte, if_neg he]
    refine ⟨hplain.1, hplain.2.1, hplain.2.2.1, ?_⟩
    rw [decide_eq_false (not_not_intro hplain.2.2.2), decide_eq_false he]

variable {v : Volume} {l : List Nat}

/-- The first slot of a run. -/
theorem SlotsAt.head {off : Nat} {de : List UInt8} {des : List (List UInt8)}
    (h : SlotsAt v l off (de :: des)) (hoff : off < 2 ^ 32) :
    off < l.length * v.geom.bytsPerClus ∧ dirSlot v l off = de := by
  have h0 := h 0 (by simp)
  rwa [slotOff_zero hoff] at h0

/-- The slots behind the first one. -/
theorem SlotsAt.tail {off : Nat} {de : List UInt8} {des : List (List UInt8)}
    (h : SlotsAt v l off (de :: des)) : SlotsAt v l ((off + 32) % 2 ^ 32) des := by
  intro j hj
  rw [slotOff_succ]
  exact h (j + 1) (by simpa using hj)

/-- `enext` on the long-name slots, from the last group on: only the first slot of the entry
stores the count, and it clears the pointer. -/
theorem enextLoop_longs (hl : IsChain v l) (ep : Dirent) {entcnt : Nat} (hent : entcnt ≤ 20)
    (c0 : Option Nat) (rest : List (List UInt8)) (fuel : Nat) :
    ∀ (longs : List (List UInt8)) {dp : Dirent} (buf : ByteMem) {off : Nat},
    longs.length ≤ entcnt → LongRun entcnt longs → OnChain dp l → dp.firstClus ≠ 0 →
    off % 32 = 0 → off < 2 ^ 32 → SlotsAt v l off (longs ++ rest) →
    ∃ dp', enextLoop v ep (fuel + longs.length) dp buf off 0 (decide (longs.length = entcnt))
        (if longs.length = entcnt then c0 else some (entcnt + 1)) =
        enextLoop v ep fuel dp' (readLongs longs buf) (slotOff off longs.length) 0
          (decide (0 = entcnt)) (if 0 = entcnt then c0 else some (entcnt + 1)) ∧
      SameEntry dp dp' ∧ OnChain dp' l ∧ SlotsAt v l (slotOff off longs.length) rest
  | [], dp, buf, off, _, _, ho, _, _, hlt, hs => by
    refine ⟨dp, ?_, rfl, ho, ?_⟩
    · rw [List.length_nil, slotOff_zero hlt]
      rfl
    · rw [List.length_nil, slotOff_zero hlt]
      exact hs
  | de :: des, dp, buf, off, hk, hrun, ho, hf, ha, hlt, hs => by
    obtain ⟨hlen, hattr, horder, hdes⟩ := hrun
    rw [List.length_cons] at hk
    rw [List.cons_append] at hs
    obtain ⟨hin, hslot⟩ := hs.head hlt
    obtain ⟨dp1, hread, hse, ho1⟩ := enextSlot_inside hl ho hf ha hin
    obtain ⟨hne0, hneE, hcnt, hlast⟩ := orderByte_spec entcnt (des.length + 1) (by omega) (by omega)
    have hf1 : dp1.firstClus ≠ 0 := by
      rw [hse]
      exact hf
    obtain ⟨dp', hloop, hse', ho', hrest⟩ := enextLoop_longs hl ep hent c0 rest fuel des
      (readLongName buf (des.length * charLongName) de) (by omega) hdes ho1 hf1
      (show (off + 32) % 2 ^ 32 % 32 = 0 by omega) (by omega) hs.tail
    rw [slotOff_succ] at hloop hrest
    refine ⟨dp', ?_, hse.trans hse', ho', hrest⟩
    have hknot : ¬ des.length = entcnt := by omega
    rw [List.length_cons, show fuel + (des.length + 1) = fuel + des.length + 1 by omega, enextLoop,
      hread]
    simp only [hslot, hlen, horder, hattr, hcnt, hlast, hne0, hneE, ne_eq, not_true_eq_false,
      or_self, if_false, if_true]
    rw [Bool.and_not_self, if_neg Bool.false_ne_true, if_neg (by omega), Nat.add_sub_cancel]
    have hcount : (if decide (des.length + 1 = entcnt) = true then some (des.length + 1 + 1)
        else if des.length + 1 = entcnt then c0 else some (entcnt + 1)) = some (entcnt + 1) := by
      by_cases hke : des.length + 1 = entcnt
      · simp [hke]
      · simp [hke]
    rw [hcount]
    rw [decide_eq_false hknot, if_neg hknot] at hloop
    exact hloop

/-- The entry that `enext` fills at a short-name slot, with the name in `buf`. -/
def fillEntry (ep : Dirent) (buf : ByteMem) (short : List UInt8) : Dirent :=
  { ep with
    filename := nameOf buf
    attr := slotAttr short
    firstClus := sneFirstClus short
    fileSize := sneFileSize short
    curClus := sneFirstClus short
    clusCnt := 0 }

/-- `enext` on the short-name slot of an entry. -/
theorem enextLoop_short (hl : IsChain v l) (ep : Dirent) {dp : Dirent} {off : Nat}
    (fuel : Nat) (buf : ByteMem) (live : Bool) (count : Option Nat) {short : List UInt8}
    {rest : List (List UInt8)} (ho : OnChain dp l) (hf : dp.firstClus ≠ 0) (ha : off % 32 = 0)
    (hlt : off < 2 ^ 32) (hs : SlotsAt v l off (short :: rest)) (hlen : short.length = 32)
    (h0 : short.getD 0 0 ≠ endOfEntry) (hE : short.getD 0 0 ≠ emptyEntry)
    (hattr : slotAttr short ≠ attrLongName) :
    ∃ dp', enextLoop v ep (fuel + 1) dp buf off 0 live count =
        .ok ⟨dp', fillEntry ep (if live then readShortName buf short else buf) short,
          if live then some 1 else count, 1⟩ ∧
      SameEntry dp dp' ∧ OnChain dp' l := by
  obtain ⟨hin, hslot⟩ := hs.head hlt
  obtain ⟨dp1, hread, hse, ho1⟩ := enextSlot_inside hl ho hf ha hin
  refine ⟨dp1, ?_, hse, ho1⟩
  rw [enextLoop, hread]
  simp only [hslot, hlen, h0, hE, hattr, ne_eq, not_true_eq_false, or_self, if_false]
  rfl

/-- `enext` on a run of deleted slots. -/
theorem enextLoop_deleted (hl : IsChain v l) (ep : Dirent) (buf : ByteMem) (live : Bool)
    (count : Option Nat) (rest : List (List UInt8)) (fuel : Nat) :
    ∀ (dels : List (List UInt8)) {dp : Dirent} {off : Nat} (cnt : Nat),
    (∀ de ∈ dels, de.length = 32 ∧ de.getD 0 0 = emptyEntry) → OnChain dp l →
    dp.firstClus ≠ 0 → off % 32 = 0 → off < 2 ^ 32 → SlotsAt v l off (dels ++ rest) →
    ∃ dp', enextLoop v ep (fuel + dels.length) dp buf off cnt live count =
        enextLoop v ep fuel dp' buf (slotOff off dels.length) (cnt + dels.length) live count ∧
      SameEntry dp dp' ∧ OnChain dp' l ∧ SlotsAt v l (slotOff off dels.length) rest
  | [], dp, off, cnt, _, ho, _, _, hlt, hs => by
    refine ⟨dp, ?_, rfl, ho, ?_⟩
    · rw [List.length_nil, slotOff_zero hlt]
      rfl
    · rw [List.length_nil, slotOff_zero hlt]
      exact hs
  | de :: dels, dp, off, cnt, hdel, ho, hf, ha, hlt, hs => by
    obtain ⟨hlen, hE⟩ := hdel de (by simp)
    rw [List.cons_append] at hs
    obtain ⟨hin, hslot⟩ := hs.head hlt
    obtain ⟨dp1, hread, hse, ho1⟩ := enextSlot_inside hl ho hf ha hin
    have hf1 : dp1.firstClus ≠ 0 := by
      rw [hse]
      exact hf
    obtain ⟨dp', hloop, hse', ho', hrest⟩ := enextLoop_deleted hl ep buf live count rest fuel
      dels (cnt + 1)
      (fun d hd ↦ hdel d (List.mem_cons_of_mem _ hd)) ho1 hf1
      (show (off + 32) % 2 ^ 32 % 32 = 0 by omega) (by omega) hs.tail
    rw [slotOff_succ] at hloop hrest
    refine ⟨dp', ?_, hse.trans hse', ho', hrest⟩
    rw [List.length_cons, show fuel + (dels.length + 1) = fuel + dels.length + 1 by omega,
      enextLoop,
      hread]
    simp only [hslot, hlen, hE, ne_eq, not_true_eq_false, false_or, if_true]
    rw [if_neg (by decide), hloop]
    congr 1
    omega

/-- The directory ends at `off`: an end mark, or the end of the chain. -/
def EndsAt (v : Volume) (l : List Nat) (off : Nat) : Prop :=
  l.length * v.geom.bytsPerClus ≤ off ∨ fileByte v l off = endOfEntry

/-- `enext` at the end of the directory. -/
theorem enextLoop_end (hl : IsChain v l) (ep : Dirent) {dp : Dirent} {off : Nat}
    (fuel : Nat) (buf : ByteMem) (cnt : Nat) (live : Bool) (count : Option Nat) (ho : OnChain dp l)
    (hf : dp.firstClus ≠ 0) (ha : off % 32 = 0) (hend : EndsAt v l off) :
    ∃ dp', enextLoop v ep (fuel + 1) dp buf off cnt live count =
        .ok ⟨dp', { ep with filename := nameOf buf, attr := buf 256 }, count, -1⟩ ∧
      SameEntry dp dp' ∧ OnChain dp' l := by
  by_cases hin : off < l.length * v.geom.bytsPerClus
  · obtain ⟨dp1, hread, hse, ho1⟩ := enextSlot_inside hl ho hf ha hin
    have h0 : (dirSlot v l off).getD 0 0 = endOfEntry := by
      rcases hend with hx | hx
      · omega
      · rw [dirSlot_first]
        exact hx
    refine ⟨dp1, ?_, hse, ho1⟩
    rw [enextLoop, hread]
    simp only [h0, or_true, if_true]
  · obtain ⟨dp1, hread, hse, ho1⟩ := enextSlot_past hl ho hf off (by omega)
    refine ⟨dp1, ?_, hse, ho1⟩
    rw [enextLoop, hread]
    rfl
/-! ### Well-formed images -/

/-- What a directory is made of: a deleted slot, or an entry. -/
inductive DirItem where
  | deleted (de : List UInt8)
  | live (longs : List (List UInt8)) (short : List UInt8)

/-- The slots of an item. -/
def DirItem.slots : DirItem → List (List UInt8)
  | deleted de => [de]
  | live longs short => longs ++ [short]

/-- Well-formed slots: the first byte and the attribute tell what each slot is. -/
def DirItem.Wf : DirItem → Prop
  | deleted de => de.length = 32 ∧ de.getD 0 0 = emptyEntry
  | live longs short => LongRun longs.length longs ∧ longs.length ≤ 20 ∧ short.length = 32 ∧
      short.getD 0 0 ≠ endOfEntry ∧ short.getD 0 0 ≠ emptyEntry ∧ slotAttr short ≠ attrLongName

/-- All the slots of a sequence of items. -/
def slotsOf (items : List DirItem) : List (List UInt8) := items.flatMap DirItem.slots

/-- From slot `p` on, the directory with chain `l` holds exactly `items`. -/
structure ImageFrom (v : Volume) (l : List Nat) (p : Nat) (items : List DirItem) : Prop where
  wf : ∀ it ∈ items, it.Wf
  slots : SlotsAt v l (32 * p) (slotsOf items)
  ends : EndsAt v l (32 * (p + (slotsOf items).length))
  bound : 32 * (p + (slotsOf items).length) < 2 ^ 32

/-- From slot `p` on, the directory with chain `l` holds `items`, whatever stands behind them. -/
structure ItemsFrom (v : Volume) (l : List Nat) (p : Nat) (items : List DirItem) : Prop where
  wf : ∀ it ∈ items, it.Wf
  slots : SlotsAt v l (32 * p) (slotsOf items)
  bound : 32 * (p + (slotsOf items).length) < 2 ^ 32

/-- The entry that `enext` yields for an item at slot `p`: offset, slot count and fields. -/
def decodeEntry (ep : Dirent) (longs : List (List UInt8)) (short : List UInt8) : Dirent :=
  let buf : ByteMem := fun x ↦ if x = 256 then ep.attr else 0
  fillEntry ep (if longs = [] then readShortName buf short else readLongs longs buf) short

/-- The live entries of a sequence of items from slot `p` on. -/
def entriesFrom : Nat → List DirItem → List (Nat × Nat × Dirent)
  | _, [] => []
  | p, .deleted _ :: items => entriesFrom (p + 1) items
  | p, .live longs short :: items =>
    (32 * p, longs.length + 1, decodeEntry {} longs short) ::
      entriesFrom (p + longs.length + 1) items

/-- The walk over a directory that `dirlookup` and `dirnext` make with `enext`, which yields
the offset, the slot count and the fields of every live entry. -/
def listDir (v : Volume) : Nat → Dirent → Nat → Except Panic (List (Nat × Nat × Dirent))
  | 0, _, _ => .error .enextDiverges
  | fuel + 1, dp, off =>
    match enext v dp {} off none with
    | .error p => .error p
    | .ok r =>
      if r.ret = -1 then .ok []
      else
        let count := r.count.getD 0
        match listDir v fuel r.dp ((off + count * 32) % 2 ^ 32) with
        | .error p => .error p
        | .ok es => .ok (if r.ret = 1 then (off, count, r.ep) :: es else es)

/-- A live directory whose cursor stands on its chain. -/
structure LiveDir (v : Volume) (l : List Nat) (dp : Dirent) : Prop where
  chain : IsChain v l
  nodup : l.Nodup
  onChain : OnChain dp l
  firstClus : dp.firstClus ≠ 0
  isDir : dp.attr &&& attrDirectory ≠ 0
  valid : dp.valid = 1

/-- Moving the cursor keeps a directory live. -/
theorem LiveDir.move {dp dp' : Dirent} (h : LiveDir v l dp) (hs : SameEntry dp dp')
    (ho : OnChain dp' l) : LiveDir v l dp' where
  chain := h.chain
  nodup := h.nodup
  onChain := ho
  firstClus := by
    rw [hs]
    exact h.firstClus
  isDir := by
    rw [hs]
    exact h.isDir
  valid := by
    rw [hs]
    exact h.valid

/-- A first cluster has one chain. -/
theorem LiveDir.unique {l' : List Nat} {dp dp' : Dirent} (h : LiveDir v l dp)
    (h' : LiveDir v l' dp')
    (hfirst : dp'.firstClus = dp.firstClus) : l' = l := by
  apply Linked.unique (fun c (hc : v.geom.InRange c) hstop ↦ ?_) h'.chain.linked h.chain.linked
    h'.chain.inRange h.chain.inRange
  · rw [h'.onChain.head, h.onChain.head, hfirst]
  · have := hc.lt_eoc
    have := hstop.1
    omega

/-- A directory whose cursor is at its start. -/
theorem LiveDir.rewind {dp dp' : Dirent} (h : LiveDir v l dp)
    (hfirst : dp'.firstClus = dp.firstClus)
    (hattr : dp'.attr = dp.attr) (hvalid : dp'.valid = dp.valid)
      (hcur : dp'.curClus = dp'.firstClus)
    (hcnt : dp'.clusCnt = 0) : LiveDir v l dp' where
  chain := h.chain
  nodup := h.nodup
  onChain := by
    refine ⟨by rw [h.onChain.head, hfirst], fun _ ↦ ?_⟩
    rw [hcnt, hcur, hfirst]
    exact h.onChain.getElem?_zero h.firstClus
  firstClus := by
    rw [hfirst]
    exact h.firstClus
  isDir := by
    rw [hattr]
    exact h.isDir
  valid := hvalid.trans h.valid

/-- The slots behind the first ones. -/
theorem slotsAt_append {off : Nat} {xs ys : List (List UInt8)}
    (h : SlotsAt v l off (xs ++ ys)) : SlotsAt v l (slotOff off xs.length) ys := by
  intro j hj
  have h1 := h (xs.length + j) (by simp; omega)
  have hs : slotOff (slotOff off xs.length) j = slotOff off (xs.length + j) := by
    simp only [slotOff]
    omega
  rw [hs]
  refine ⟨h1.1, h1.2.trans ?_⟩
  rw [List.getElem_append_right (by omega)]
  simp

/-- The offset of a slot counted from another. -/
theorem slotOff_mul {p n : Nat} (h : 32 * (p + n) < 2 ^ 32) :
    slotOff (32 * p) n = 32 * (p + n) := by
  simp only [slotOff]
  omega

/-- An image holds its items. -/
theorem ImageFrom.items {p : Nat} {items : List DirItem} (h : ImageFrom v l p items) :
    ItemsFrom v l p items := ⟨h.wf, h.slots, h.bound⟩

/-- The items behind the first one. -/
theorem ItemsFrom.tail {p : Nat} {it : DirItem} {items : List DirItem}
    (h : ItemsFrom v l p (it :: items)) : ItemsFrom v l (p + it.slots.length) items := by
  have hslots : slotsOf (it :: items) = it.slots ++ slotsOf items := rfl
  have hb := h.bound
  rw [hslots, List.length_append] at hb
  refine ⟨fun x hx ↦ h.wf x (List.mem_cons_of_mem _ hx), ?_, ?_⟩
  · have := slotsAt_append (hslots ▸ h.slots)
    rwa [slotOff_mul (by omega)] at this
  · omega

/-- The image behind its first item. -/
theorem ImageFrom.tail {p : Nat} {it : DirItem} {items : List DirItem}
    (h : ImageFrom v l p (it :: items)) : ImageFrom v l (p + it.slots.length) items := by
  have hslots : slotsOf (it :: items) = it.slots ++ slotsOf items := rfl
  have he := h.ends
  rw [hslots, List.length_append] at he
  have htail := h.items.tail
  refine ⟨htail.wf, htail.slots, ?_, htail.bound⟩
  rwa [Nat.add_assoc]

/-- Items lie inside the chain. -/
theorem ItemsFrom.inside {p : Nat} {items : List DirItem} (h : ItemsFrom v l p items)
    (hp : 32 * p ≤ l.length * v.geom.bytsPerClus) :
    32 * (p + (slotsOf items).length) ≤ l.length * v.geom.bytsPerClus := by
  by_cases hz : (slotsOf items).length = 0
  · rwa [hz, Nat.add_zero]
  · have hb := h.bound
    have hlast := (h.slots ((slotsOf items).length - 1) (by omega)).1
    rw [slotOff_mul (by omega)] at hlast
    have := slot_end_le v.geom (32 * (p + ((slotsOf items).length - 1))) (by omega) hlast
    omega

/-- An image lies inside the chain. -/
theorem ImageFrom.inside {p : Nat} {items : List DirItem} (h : ImageFrom v l p items)
    (hp : 32 * p ≤ l.length * v.geom.bytsPerClus) :
    32 * (p + (slotsOf items).length) ≤ l.length * v.geom.bytsPerClus := h.items.inside hp

/-- `enext` has a round for each slot of the directory and one for its end. -/
theorem enextFuel_image (hl : IsChain v l) (hn : l.Nodup) {n : Nat}
    (h : 32 * n ≤ l.length * v.geom.bytsPerClus) : n + 1 ≤ enextFuel v := by
  have hdvd : 32 ∣ v.geom.bytsPerClus := by
    rw [Geom.bytsPerClus]
    exact Dvd.dvd.mul_left (by decide) _
  obtain ⟨m, hm⟩ := hdvd
  have hle : l.length * m ≤ v.geom.dataClusCnt * m :=
    Nat.mul_le_mul_right _ (hl.length_le hn)
  have hdiv : v.geom.bytsPerClus / 32 = m := by omega
  rw [hm, Nat.mul_left_comm] at h
  rw [enextFuel, hdiv]
  omega

/-- `enext` on a live directory is its loop. -/
theorem enext_eq {dp ep : Dirent} {off : Nat} (count : Option Nat) (h : LiveDir v l dp)
    (he : ep.valid = 0) (ha : off % 32 = 0) :
    enext v dp ep off count = enextLoop v ep (enextFuel v) dp
      (fun x ↦ if x = 256 then ep.attr else 0) off 0 true count := by
  rw [enext, if_neg h.isDir, if_neg (by simp [he]), if_neg (by omega), if_neg (by simp [h.valid])]

/-- `enext` at a live entry yields it and counts its slots. -/
theorem enext_live {dp : Dirent} {p : Nat} (ep : Dirent) (count : Option Nat)
    {longs : List (List UInt8)}
    {short : List UInt8} {items : List DirItem} (h : LiveDir v l dp) (he : ep.valid = 0)
    (himg : ItemsFrom v l p (.live longs short :: items)) :
    ∃ dp', enext v dp ep (32 * p) count =
        .ok ⟨dp', decodeEntry ep longs short, some (longs.length + 1), 1⟩ ∧
      SameEntry dp dp' ∧ OnChain dp' l := by
  obtain ⟨hrun, hcnt, hlen, h0, hE, hattr⟩ := himg.wf (.live longs short) (by simp)
  have hslots : slotsOf (.live longs short :: items) = longs ++ (short :: slotsOf items) := by
    simp [slotsOf, DirItem.slots]
  have hs := himg.slots
  have hb := himg.bound
  rw [hslots] at hs hb
  simp only [List.length_append, List.length_cons] at hb
  have hlast := (hs longs.length (by simp)).1
  rw [slotOff_mul (by omega)] at hlast
  have hfuel := enextFuel_image h.chain h.nodup (n := longs.length + 1) (by
    have := slot_end_le v.geom (32 * (p + longs.length)) (by omega) hlast
    omega)
  obtain ⟨fuel, hfuel⟩ := Nat.exists_eq_add_of_le hfuel
  obtain ⟨dp1, hloop, hse, ho, hrest⟩ := enextLoop_longs h.chain ep hcnt count
    (short :: slotsOf items) (fuel + 1 + 1) longs
    (fun x ↦ if x = 256 then ep.attr else 0) (Nat.le_refl _) hrun h.onChain h.firstClus
    (show 32 * p % 32 = 0 by omega) (by omega) hs
  have h1 := h.move hse ho
  obtain ⟨dp2, hshort, hse2, ho2⟩ := enextLoop_short h.chain ep (fuel + 1)
    (readLongs longs fun x ↦ if x = 256 then ep.attr else 0) (decide (0 = longs.length))
    (if 0 = longs.length then count else some (longs.length + 1)) ho h1.firstClus
    (slotOff_mod (by omega) _) (Nat.mod_lt _ (by decide)) hrest hlen h0 hE hattr
  refine ⟨dp2, ?_, hse.trans hse2, ho2⟩
  have hft : enextFuel v = fuel + 1 + 1 + longs.length := by omega
  rw [enext_eq count h he (by omega), hft]
  rw [if_pos rfl, decide_eq_true rfl] at hloop
  rw [hloop, hshort]
  cases longs with
  | nil => rfl
  | cons de des =>
    have hne : ¬ 0 = (de :: des).length := by simp
    simp only [hne, decide_false, Bool.false_eq_true, if_false, decodeEntry, reduceCtorEq]

/-- A cleared buffer holds no name. -/
theorem nameOf_blank (attr : UInt8) : nameOf (fun x ↦ if x = 256 then attr else 0) = [] := by
  rw [nameOf, load, List.takeWhile_eq_nil_iff]
  intro hlen
  simp

/-- Slots of deleted items. -/
theorem slotsOf_deleted_append (dels : List (List UInt8)) (items : List DirItem) :
    slotsOf (dels.map .deleted ++ items) = dels ++ slotsOf items := by
  simp [slotsOf, List.flatMap_map, DirItem.slots]

/-- `enext` at deleted slots up to the end of the directory: the entry has no name. -/
theorem enext_tail {dp : Dirent} {p : Nat} (ep : Dirent) (count : Option Nat)
    {dels : List (List UInt8)} (h : LiveDir v l dp) (he : ep.valid = 0)
    (himg : ImageFrom v l p (dels.map .deleted)) (hp : 32 * p ≤ l.length * v.geom.bytsPerClus) :
    ∃ dp', enext v dp ep (32 * p) count = .ok ⟨dp', { ep with filename := [] }, count, -1⟩ ∧
      SameEntry dp dp' ∧ OnChain dp' l := by
  have hslots : slotsOf (dels.map .deleted) = dels ++ [] := by
    have := slotsOf_deleted_append dels []
    rwa [List.append_nil] at this
  have hs := himg.slots
  have hb := himg.bound
  have hend := himg.ends
  have hin := himg.inside hp
  rw [hslots] at hs hb hend hin
  rw [List.append_nil] at hb hend hin
  have hdel : ∀ de ∈ dels, de.length = 32 ∧ de.getD 0 0 = emptyEntry := by
    intro de hde
    exact himg.wf (.deleted de) (List.mem_map_of_mem hde)
  have hfuel := enextFuel_image h.chain h.nodup (n := dels.length) (by omega)
  obtain ⟨fuel, hfuel⟩ := Nat.exists_eq_add_of_le hfuel
  obtain ⟨dp1, hloop, hse, ho, -⟩ := enextLoop_deleted h.chain ep
    (fun x ↦ if x = 256 then ep.attr else 0) true count [] (fuel + 1) dels 0 hdel h.onChain
    h.firstClus (show 32 * p % 32 = 0 by omega) (by omega) hs
  have h1 := h.move hse ho
  have hft : enextFuel v = fuel + 1 + dels.length := by omega
  have hend' : EndsAt v l (slotOff (32 * p) dels.length) := by
    rw [slotOff_mul (by omega)]
    exact hend
  obtain ⟨dp2, hstop, hse2, ho2⟩ := enextLoop_end h.chain ep fuel
    (fun x ↦ if x = 256 then ep.attr else 0) (0 + dels.length) true count ho h1.firstClus
    (slotOff_mod (by omega) _) hend'
  have heq := enext_eq count h he (show 32 * p % 32 = 0 by omega)
  rw [hft, hloop, hstop] at heq
  refine ⟨dp2, ?_, hse.trans hse2, ho2⟩
  rw [heq, nameOf_blank, if_pos rfl]

/-- The first slot of an entry is neither deleted nor an end mark. -/
theorem DirItem.Wf.first {longs : List (List UInt8)} {short : List UInt8}
    (h : (DirItem.live longs short).Wf) : ∃ de des, longs ++ [short] = de :: des ∧ de.length = 32 ∧
      de.getD 0 0 ≠ endOfEntry ∧ de.getD 0 0 ≠ emptyEntry := by
  obtain ⟨hrun, hcnt, hlen, h0, hE, hattr⟩ := h
  cases longs with
  | nil => exact ⟨short, [], rfl, hlen, h0, hE⟩
  | cons de des =>
    obtain ⟨hl1, _, horder, _⟩ := hrun
    have hspec := orderByte_spec (de :: des).length (des.length + 1) (by omega)
      (by simpa using hcnt)
    refine ⟨de, des ++ [short], rfl, hl1, ?_, ?_⟩
    · rw [horder]
      exact hspec.1
    · rw [horder]
      exact hspec.2.1

/-- `enext` at a run of deleted slots that an entry follows: it counts the run, and the entry has no
name. -/
theorem enext_gap {dp : Dirent} {p : Nat} (ep : Dirent) (count : Option Nat)
    {dels longs : List (List UInt8)} {short : List UInt8} {items : List DirItem}
    (h : LiveDir v l dp) (he : ep.valid = 0) (hne : dels ≠ [])
    (himg : ItemsFrom v l p (dels.map .deleted ++ .live longs short :: items))
    (hp : 32 * p ≤ l.length * v.geom.bytsPerClus) :
    ∃ dp', enext v dp ep (32 * p) count =
        .ok ⟨dp', { ep with filename := [] }, some dels.length, 0⟩ ∧
      SameEntry dp dp' ∧ OnChain dp' l := by
  have hs := himg.slots
  have hb := himg.bound
  have hin := himg.inside hp
  rw [slotsOf_deleted_append] at hs hb hin
  rw [List.length_append] at hb hin
  have hdel : ∀ de ∈ dels, de.length = 32 ∧ de.getD 0 0 = emptyEntry := by
    intro de hde
    exact himg.wf (.deleted de) (List.mem_append_left _ (List.mem_map_of_mem hde))
  obtain ⟨de, des, hde, hdlen, hd0, hdE⟩ := (himg.wf (.live longs short) (by simp)).first
  have hfirst : slotsOf (.live longs short :: items) = de :: (des ++ slotsOf items) := by
    rw [← List.cons_append, ← hde]
    rfl
  rw [hfirst] at hs hb hin
  rw [List.length_cons] at hb hin
  have hfuel := enextFuel_image h.chain h.nodup (n := dels.length) (by omega)
  obtain ⟨fuel, hfuel⟩ := Nat.exists_eq_add_of_le hfuel
  obtain ⟨dp1, hloop, hse, ho, hrest⟩ := enextLoop_deleted h.chain ep
    (fun x ↦ if x = 256 then ep.attr else 0) true count (de :: (des ++ slotsOf items)) (fuel + 1)
    dels 0 hdel h.onChain h.firstClus (show 32 * p % 32 = 0 by omega) (by omega) hs
  have h1 := h.move hse ho
  have hft : enextFuel v = fuel + 1 + dels.length := by omega
  obtain ⟨hdin, hdslot⟩ := hrest.head (Nat.mod_lt _ (by decide))
  obtain ⟨dp2, hread, hse2, ho2⟩ := enextSlot_inside h.chain ho h1.firstClus
    (slotOff_mod (by omega) _) hdin
  have hcne : ¬ dels.length = 0 := by
    intro hz
    exact hne (List.eq_nil_of_length_eq_zero hz)
  have heq := enext_eq count h he (show 32 * p % 32 = 0 by omega)
  rw [hft, hloop, enextLoop, hread] at heq
  simp only [hdslot, hdlen, hd0, hdE, Nat.zero_add, hcne, ne_eq, not_true_eq_false,
    not_false_eq_true, or_self, if_false, if_true] at heq
  refine ⟨dp2, ?_, hse.trans hse2, ho2⟩
  rw [heq, nameOf_blank]

/-- A sequence of items begins with its deleted slots. -/
theorem split_deleted : ∀ items : List DirItem, ∃ (dels : List (List UInt8))
    (rest : List DirItem), items = dels.map .deleted ++ rest ∧
      ∀ de tail, rest ≠ .deleted de :: tail
  | [] => ⟨[], [], rfl, fun _ _ h ↦ by cases h⟩
  | .live longs short :: items => ⟨[], _, rfl, fun _ _ h ↦ by cases h⟩
  | .deleted de :: items => by
    obtain ⟨dels, rest, heq, hrest⟩ := split_deleted items
    exact ⟨de :: dels, rest, by rw [heq]; rfl, hrest⟩

/-- Deleted slots yield no entries. -/
theorem entriesFrom_deleted (items : List DirItem) : ∀ (dels : List (List UInt8))
    (p : Nat), entriesFrom p (dels.map .deleted ++ items) = entriesFrom (p + dels.length) items
  | [], p => rfl
  | de :: dels, p => by
    simp only [List.map_cons, List.cons_append, entriesFrom, entriesFrom_deleted items dels,
      List.length_cons]
    congr 1
    omega

/-- The items behind deleted slots. -/
theorem ItemsFrom.drop_deleted {items : List DirItem} : ∀ {dels : List (List UInt8)}
    {p : Nat}, ItemsFrom v l p (dels.map .deleted ++ items) → ItemsFrom v l (p + dels.length) items
  | [], p, h => h
  | de :: dels, p, h => by
    have := ItemsFrom.drop_deleted h.tail
    rw [List.length_cons]
    rwa [show p + (dels.length + 1) = p + (DirItem.deleted de).slots.length + dels.length by
      simp [DirItem.slots]; omega]

/-- The image behind deleted slots. -/
theorem ImageFrom.drop_deleted {items : List DirItem} {dels : List (List UInt8)} {p : Nat}
    (h : ImageFrom v l p (dels.map .deleted ++ items)) : ImageFrom v l (p + dels.length) items := by
  have hitems := h.items.drop_deleted
  have hends := h.ends
  rw [slotsOf_deleted_append, List.length_append, ← Nat.add_assoc] at hends
  exact ⟨hitems.wf, hitems.slots, hends, hitems.bound⟩

/-- The slots of the first item come first. -/
theorem slotsOf_cons (it : DirItem) (items : List DirItem) :
    slotsOf (it :: items) = it.slots ++ slotsOf items := rfl

/-- The slots of two parts. -/
theorem slotsOf_append (xs ys : List DirItem) :
    slotsOf (xs ++ ys) = slotsOf xs ++ slotsOf ys := List.flatMap_append

private theorem slotsAt_left {off : Nat} {xs ys : List (List UInt8)}
    (h : SlotsAt v l off (xs ++ ys)) : SlotsAt v l off xs := by
  intro j hj
  have h1 := h j (by rw [List.length_append]; omega)
  rw [List.getElem_append_left hj] at h1
  exact h1

/-- The first part of a sequence of items. -/
theorem ItemsFrom.left {p : Nat} {xs ys : List DirItem} (h : ItemsFrom v l p (xs ++ ys)) :
    ItemsFrom v l p xs := by
  have hs := h.slots
  have hb := h.bound
  rw [slotsOf_append] at hs hb
  rw [List.length_append] at hb
  exact ⟨fun it hit ↦ h.wf it (List.mem_append_left _ hit), slotsAt_left hs, by omega⟩

/-- The image behind some of its items. -/
theorem ImageFrom.drop {ys : List DirItem} : ∀ {xs : List DirItem} {p : Nat},
    ImageFrom v l p (xs ++ ys) → ImageFrom v l (p + (slotsOf xs).length) ys
  | [], p, h => h
  | it :: xs, p, h => by
    have ih : ImageFrom v l (p + it.slots.length + (slotsOf xs).length) ys := ImageFrom.drop h.tail
    rw [show slotsOf (it :: xs) = it.slots ++ slotsOf xs from rfl, List.length_append,
      ← Nat.add_assoc]
    exact ih

/-- The walk over an image yields exactly its live entries, in order. -/
theorem listDir_image : ∀ (fuel : Nat) {dp : Dirent} {p : Nat} {items : List DirItem},
    items.length < fuel → LiveDir v l dp → ImageFrom v l p items →
    32 * p ≤ l.length * v.geom.bytsPerClus →
    listDir v fuel dp (32 * p) = .ok (entriesFrom p items)
  | 0, dp, p, items, hfuel, _, _, _ => absurd hfuel (Nat.not_lt_zero _)
  | fuel + 1, dp, p, items, hfuel, h, himg, hp => by
    have hin := himg.inside hp
    obtain ⟨dels, rest, rfl, hrest⟩ := split_deleted items
    have hb := himg.bound
    rw [slotsOf_deleted_append, List.length_append] at hb hin
    rw [entriesFrom_deleted]
    cases rest with
    | nil =>
      rw [List.append_nil] at himg
      obtain ⟨dp1, hnext, -⟩ := enext_tail {} none h rfl himg hp
      rw [listDir, hnext]
      rfl
    | cons it tail =>
      cases it with
      | deleted de => exact absurd rfl (hrest de tail)
      | live longs short =>
        by_cases hd : dels = []
        · subst hd
          change ImageFrom v l p (.live longs short :: tail) at himg
          obtain ⟨dp1, hnext, hse, ho⟩ := enext_live {} none h rfl himg.items
          have htail := himg.tail
          have hslen : (DirItem.live longs short).slots.length = longs.length + 1 := by
            simp [DirItem.slots]
          have hsl : slotsOf (.live longs short :: tail) =
              (DirItem.live longs short).slots ++ slotsOf tail := rfl
          rw [hsl, List.length_append, hslen] at hb hin
          rw [List.length_nil] at hb hin
          rw [hslen] at htail
          have ih := listDir_image fuel (p := p + longs.length + 1)
            (show tail.length < fuel by simp only [List.map_nil, List.nil_append,
              List.length_cons] at hfuel; omega)
            (h.move hse ho) htail (by omega)
          rw [List.length_nil, Nat.add_zero, listDir, hnext]
          simp only [Option.getD_some]
          rw [if_neg (by decide), show (32 * p + (longs.length + 1) * 32) % 2 ^ 32 =
            32 * (p + longs.length + 1) by omega, ih]
          rfl
        · obtain ⟨dp1, hnext, hse, ho⟩ := enext_gap {} none h rfl hd himg.items hp
          have hlen : (DirItem.live longs short :: tail).length < fuel := by
            have : 0 < dels.length := List.length_pos_of_ne_nil hd
            simp only [List.length_append, List.length_map] at hfuel
            omega
          have ih := listDir_image fuel hlen (h.move hse ho) himg.drop_deleted (by omega)
          rw [listDir, hnext]
          simp only [Option.getD_some]
          rw [if_neg (by decide), show (32 * p + dels.length * 32) % 2 ^ 32 =
            32 * (p + dels.length) by omega, ih]
          rfl

end Xv6K210.Fs
