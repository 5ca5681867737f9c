import Xv6K210.Fs.Entry
import Xv6K210.Base.LittleEndian
import Mathlib.Data.List.DropRight

/-!
# Directory slots

Source `kernel/fs/fat32.c:417–650,732–825` and `kernel/libc/string.c`
(`snstr`). A directory is a chain of clusters read as 32-byte slots. An entry takes a run
of long-name slots, in reverse order of the name, and one short-name slot.
-/

namespace Xv6K210.Fs

open Xv6K210.Base

/-- `LAST_LONG_ENTRY`. -/
abbrev lastLongEntry : UInt8 := 0x40
/-- `EMPTY_ENTRY`. -/
abbrev emptyEntry : UInt8 := 0xe5
/-- `END_OF_ENTRY`. -/
abbrev endOfEntry : UInt8 := 0x00
/-- `CHAR_LONG_NAME`. -/
abbrev charLongName : Nat := 13
/-- `CHAR_SHORT_NAME`. -/
abbrev charShortName : Nat := 11
/-- `FAT32_MAX_FILENAME`. -/
abbrev fat32MaxFilename : Nat := 255
/-- The space character. -/
abbrev spaceCh : UInt8 := 0x20
/-- The character `.`. -/
abbrev dotCh : UInt8 := 0x2e

/-! ### Names -/

/-- Characters that `formatname` refuses, besides the control characters. -/
def longIllegal : List UInt8 := [0x22, 0x2a, 0x2f, 0x3a, 0x3c, 0x3e, 0x3f, 0x5c, 0x7c]

/-- `formatname` (`fat32.c:417–435`) on a C string. -/
def formatname (name : List UInt8) : Option (List UInt8) :=
  let name := name.dropWhile fun c ↦ c == spaceCh || c == dotCh
  if name.any fun c ↦ c < 0x20 || longIllegal.contains c then none
  else some (name.rdropWhile (· == spaceCh))

/-- Characters that are legal in a long name only. -/
def shortIllegal : List UInt8 := [0x2b, 0x2c, 0x3b, 0x3d, 0x5b, 0x5d]

/-- The character that stands for `c` in a short name (`fat32.c:462–468`). -/
def shortChar (c : UInt8) : UInt8 :=
  if 0x61 ≤ c ∧ c ≤ 0x7a then c - 0x20 else if shortIllegal.contains c then 0x5f else c

/-- Index of the last `.`, or 0 (`fat32.c:443–448`). -/
def lastDot (name : List UInt8) : Nat :=
  ((List.range name.length).reverse.find? fun j ↦ name[j]? == some dotCh).getD 0

/-- The main loop of `generate_shortname` (`fat32.c:449–470`). `pos` is the index of the
next character and `p` the pointer to the last `.`, `none` once it is null. Every round
moves `pos` forward. -/
def shortLoop (name : List UInt8) : Nat → Nat → Option Nat → List UInt8 → List UInt8
  | 0, _, _, out => out
  | fuel + 1, pos, p, out =>
    if charShortName ≤ out.length then out
    else
      match name[pos]? with
      | none => out
      | some c =>
        if out.length = 8 ∧ p.isSome then
          if p.getD 0 < pos then out else shortLoop name fuel (p.getD 0 + 1) none out
        else if c = spaceCh then shortLoop name fuel (pos + 1) p out
        else if c = dotCh then
          -- a null `p` is below every address
          if p.getD 0 ≤ pos then
            shortLoop name fuel (pos + 1) none (out ++ List.replicate (8 - out.length) spaceCh)
          else shortLoop name fuel (pos + 1) p out
        else shortLoop name fuel (pos + 1) p (out ++ [shortChar c])

/-- `generate_shortname` (`fat32.c:438–475`). -/
def generateShortname (name : List UInt8) : List UInt8 :=
  let out := shortLoop name name.length 0 (some (lastDot name)) []
  out ++ List.replicate (charShortName - out.length) spaceCh

/-- `cal_checksum` (`fat32.c:477–484`). -/
def calChecksum (shortname : List UInt8) : UInt8 :=
  shortname.foldl (fun sum b ↦ (if sum &&& 1 = 0 then (0 : UInt8) else 0x80) + (sum >>> 1) + b) 0

/-! ### Slots -/

/-- The 26 name bytes of a long-name slot (`fat32.c:526–541`): the characters as 16-bit
units, the terminator and the padding `0xffff`. -/
def lneChars : Nat → List UInt8 → List UInt8
  | 0, _ => []
  | n + 1, c :: p => c :: 0 :: lneChars n p
  | n + 1, [] => 0 :: 0 :: List.replicate (2 * n) 0xff

/-- A long-name slot, with its name bytes in the three fields. -/
def lne (order checksum : UInt8) (chars : List UInt8) : List UInt8 :=
  [order] ++ chars.take 10 ++ [attrLongName, 0, checksum] ++ (chars.drop 10).take 12 ++ [0, 0] ++
    chars.drop 22

/-- A short-name slot. -/
def sne (name : List UInt8) (attr : UInt8) (firstClus fileSize : Nat) : List UInt8 :=
  name ++ [attr] ++ List.replicate 8 0 ++ leBytes 2 (firstClus / 2 ^ 16) ++
    List.replicate 4 0 ++ leBytes 2 firstClus ++ leBytes 4 fileSize

/-- Attribute byte of a slot of either kind. -/
def slotAttr (de : List UInt8) : UInt8 := de.getD 11 0

/-- First cluster stored in a short-name slot. -/
def sneFirstClus (de : List UInt8) : Nat :=
  leNat ((de.drop 20).take 2) * 2 ^ 16 + leNat ((de.drop 26).take 2)

/-- File size stored in a short-name slot. -/
def sneFileSize (de : List UInt8) : Nat := leNat ((de.drop 28).take 4)

/-- Store first cluster and size into a short-name slot, as `eupdate` does. -/
def sneUpdate (de : List UInt8) (firstClus fileSize : Nat) : List UInt8 :=
  de.take 20 ++ leBytes 2 (firstClus / 2 ^ 16) ++ (de.drop 22).take 4 ++ leBytes 2 firstClus ++
    leBytes 4 fileSize

/-! ### Writing entries -/

/-- `reloc_clus(dp, off, 1)` followed by a write of one slot there. -/
def putSlot (v : Volume) (dp : Dirent) (off : Nat) (de : List UInt8) :
    Except Panic (Volume × Dirent) :=
  match relocClus v dp off true with
  | .error p => .error p
  | .ok (v, dp, off2) =>
    match rwClus v dp.curClus (.write fun i ↦ some (de.getD i 0)) 0 (toU32 off2) 32 with
    | .error p => .error p
    | .ok (v, _, _) => .ok (v, dp)

/-- The loop of `emake` over the long-name slots, `i` of them left (`fat32.c:521–545`). -/
def emakeLong (name : List UInt8) (checksum : UInt8) (entcnt : Nat) :
    Nat → Volume → Dirent → Nat → Except Panic (Volume × Dirent × Nat)
  | 0, v, dp, off => .ok (v, dp, off)
  | i + 1, v, dp, off =>
    let order := UInt8.ofNat (i + 1)
    let order := if i + 1 = entcnt then order ||| lastLongEntry else order
    let chars := lneChars charLongName (name.drop (i * charLongName))
    match putSlot v dp off (lne order checksum chars) with
    | .error p => .error p
    | .ok (v, dp) => emakeLong name checksum entcnt i v dp ((off + 32) % 2 ^ 32)

/-- The name of the slot at offset 0 (`.`) or 32 (`..`) of a new directory. -/
def dotName (off : Nat) : List UInt8 :=
  if off = 0 then dotCh :: List.replicate 10 spaceCh
  else dotCh :: dotCh :: List.replicate 9 spaceCh

/-- Number of long-name slots of a name. -/
def longCount (name : List UInt8) : Nat := (name.length + charLongName - 1) / charLongName

/-- `emake` (`fat32.c:494–557`): write the slots of `ep` into the directory `dp`. -/
def emake (v : Volume) (dp ep : Dirent) (off : Nat) : Except Panic (Volume × Dirent) :=
  if dp.attr &&& attrDirectory = 0 then .error .emakeNotDir
  else if off % 32 ≠ 0 then .error .emakeNotAligned
  else if off ≤ 32 then putSlot v dp off (sne (dotName off) attrDirectory ep.firstClus 0)
  else
    let shortname := generateShortname ep.filename
    let entcnt := longCount ep.filename
    match emakeLong ep.filename (calChecksum shortname) entcnt entcnt v dp off with
    | .error p => .error p
    | .ok (v, dp, off) => putSlot v dp off (sne shortname ep.attr ep.firstClus ep.fileSize)

/-- The kinds of entry that `create` (`kernel/syscall/sysfile.c:109–126`) asks for. -/
inductive NodeKind where
  | dir
  | device
  | file (readOnly : Bool)
  deriving DecidableEq, Repr

/-- The attribute that `create` passes to `ealloc` for a kind. -/
def NodeKind.attr : NodeKind → UInt8
  | dir => attrDirectory
  | device => attrDevice
  | file true => attrReadOnly
  | file false => 0

/-- The attribute that `ealloc` stores in a new entry (`fat32.c:586–598`). -/
def eallocAttr (attr : UInt8) : UInt8 :=
  if attr = attrDirectory then attr ||| attrDirectory
  else if attr = attrDevice then attr ||| attrDevice
  else attr ||| attrArchive

/-- The part of `ealloc` that creates the entry (`fat32.c:575–603`), once the lookup has
given the offset for its slots: `dp` is the directory, in cache slot `k`. -/
def eallocNew (v : Volume) (k : Nat) (dp : Dirent) (name : List UInt8) (attr : UInt8)
    (off : Nat) : Except Panic (Volume × Dirent × Dirent) :=
  let dp := { dp with ref := dp.ref + 1 }
  let ep : Dirent :=
    { filename := name.take fat32MaxFilename, attr := eallocAttr attr, off, parent := some k,
      ref := 1 }
  if attr = attrDirectory then do
    let (v, clus) ← allocClus v
    let ep := { ep with firstClus := clus, curClus := clus }
    let (v, ep) ← emake v ep ep 0
    let (v, ep) ← emake v ep dp 32
    let (v, dp) ← emake v dp ep off
    return (v, dp, { ep with valid := 1 })
  else do
    let (v, dp) ← emake v dp ep off
    return (v, dp, { ep with valid := 1 })

/-- Read `n` bytes of a cluster into a kernel variable. -/
def readClus (v : Volume) (cluster : Nat) (off2 : Int) (n : Nat) : Except Panic (List UInt8) :=
  match rwClus v cluster (.read fun _ ↦ true) 0 (toU32 off2) n with
  | .error p => .error p
  | .ok (_, _, bs) => .ok bs

/-- Write a kernel variable into a cluster. -/
def writeClus (v : Volume) (cluster : Nat) (off2 : Int) (bs : List UInt8) :
    Except Panic Volume :=
  match rwClus v cluster (.write fun i ↦ some (bs.getD i 0)) 0 (toU32 off2) bs.length with
  | .error p => .error p
  | .ok (v, _, _) => .ok v

/-- `entcnt`, as `eupdate` and `eremove` derive it from the first byte of an entry. -/
def slotCount (b : UInt8) : Nat := (b &&& ~~~lastLongEntry).toNat

/-- `eupdate` (`fat32.c:615–630`) of the entry `e` in its parent directory `dp`. -/
def eupdate (v : Volume) (dp e : Dirent) : Except Panic (Volume × Dirent × Dirent) :=
  if e.dirty = false ∨ e.valid ≠ 1 then .ok (v, dp, e)
  else do
    let (v, dp, off) ← relocClus v dp e.off false
    let b ← readClus v dp.curClus off 1
    let entcnt := slotCount (b.getD 0 0)
    let (v, dp, off) ← relocClus v dp ((e.off + entcnt * 32) % 2 ^ 32) false
    let de ← readClus v dp.curClus off 32
    let v ← writeClus v dp.curClus off (sneUpdate de e.firstClus e.fileSize)
    return (v, dp, { e with dirty := false })

/-- The loop of `eremove` (`fat32.c:644–648`) with `k` slots left. -/
def eremoveLoop : Nat → Volume → Dirent → Nat → Int → Except Panic (Volume × Dirent)
  | 0, v, dp, _, _ => .ok (v, dp)
  | k + 1, v, dp, off, off2 => do
    let v ← writeClus v dp.curClus off2 [emptyEntry]
    let (v, dp, off2) ← relocClus v dp ((off + 32) % 2 ^ 32) false
    eremoveLoop k v dp ((off + 32) % 2 ^ 32) off2

/-- `eremove` (`fat32.c:635–650`) of the entry `e` in its parent directory `dp`. -/
def eremove (v : Volume) (dp e : Dirent) : Except Panic (Volume × Dirent × Dirent) :=
  if e.valid ≠ 1 then .ok (v, dp, e)
  else do
    let (v, dp, off2) ← relocClus v dp e.off false
    let b ← readClus v dp.curClus off2 1
    let (v, dp) ← eremoveLoop (slotCount (b.getD 0 0) + 1) v dp e.off off2
    return (v, dp, { e with valid := -1 })

/-! ### Reading entries -/

/-- `snstr` (`string.c`): the low bytes of 16-bit units up to a zero unit, then zeros. One
byte fewer than the length is written when there is a zero unit. -/
def snstr (buf : ByteMem) (dst : Nat) : List UInt8 → ByteMem
  | lo :: hi :: src =>
    if lo = 0 ∧ hi = 0 then fill buf dst (src.length / 2) 0
    else snstr (store buf dst [lo]) (dst + 1) src
  | _ => buf

/-- The long branch of `read_entry_name` (`fat32.c:734–741`), to position `dst`. -/
def readLongName (buf : ByteMem) (dst : Nat) (de : List UInt8) : ByteMem :=
  let buf := snstr buf dst ((de.drop 1).take 10)
  let buf := snstr buf (dst + 5) ((de.drop 14).take 12)
  snstr buf (dst + 11) ((de.drop 28).take 4)

/-- The bytes that the short branch of `read_entry_name` copies (`fat32.c:745–755`). -/
def shortNameBytes (de : List UInt8) : List UInt8 :=
  let name := de.take 11
  (name.take 8).takeWhile (· ≠ spaceCh) ++
    if name.getD 8 0 = spaceCh then [] else dotCh :: (name.drop 8).takeWhile (· ≠ spaceCh)

/-- The short branch of `read_entry_name` (`fat32.c:742–756`). -/
def readShortName (buf : ByteMem) (de : List UInt8) : ByteMem :=
  store (fill buf 0 (charShortName + 2) 0) 0 (shortNameBytes de)

/-- The C string at the start of a name buffer of `FAT32_MAX_FILENAME + 1` bytes. -/
def nameOf (buf : ByteMem) : List UInt8 :=
  (load buf 0 (fat32MaxFilename + 1)).takeWhile (· ≠ 0)

/-- What `enext` leaves: directory cursor, entry, `*count` if it was stored, and result. -/
structure EnextOut where
  dp : Dirent
  ep : Dirent
  count : Option Nat
  ret : Int
  deriving DecidableEq, Repr

/-- One slot as `enext` sees it: the directory cursor moved to it and its 32 bytes, no bytes
at the end of the directory. -/
def enextSlot (v : Volume) (dp : Dirent) (off : Nat) : Except Panic (Dirent × List UInt8) :=
  match relocClus v dp off false with
  | .error p => .error p
  | .ok (_, dp, off2) =>
    if off2 = -1 then .ok (dp, [])
    else
      match readClus v dp.curClus off2 32 with
      | .error p => .error p
      | .ok de => .ok (dp, de)

/-- The loop of `enext` (`fat32.c:797–823`). `buf` is the memory from `ep->filename` on,
where byte 256 is `ep->attribute` and the padding ends at 260; `live` tells whether the
pointer `count` is not null yet. -/
def enextLoop (v : Volume) (ep : Dirent) : Nat → Dirent → ByteMem → Nat → Nat → Bool →
    Option Nat → Except Panic EnextOut
  | 0, _, _, _, _, _, _ => .error .enextDiverges
  | fuel + 1, dp, buf, off, cnt, live, count =>
    match enextSlot v dp off with
    | .error p => .error p
    | .ok (dp, de) =>
      let order := de.getD 0 0
      if de.length ≠ 32 ∨ order = endOfEntry then
        .ok ⟨dp, { ep with filename := nameOf buf, attr := buf 256 }, count, -1⟩
      else if order = emptyEntry then
        enextLoop v ep fuel dp buf ((off + 32) % 2 ^ 32) (cnt + 1) live count
      else if cnt ≠ 0 then
        if live then
          .ok ⟨dp, { ep with filename := nameOf buf, attr := buf 256 }, some cnt, 0⟩
        else .error .nullCount
      else if slotAttr de = attrLongName then
        let lcnt := slotCount order
        let last : Bool := order &&& lastLongEntry ≠ 0
        if last && !live then .error .nullCount
        -- outside 1..20 the characters land outside of `ep->filename` and its padding
        else if lcnt = 0 ∨ 20 < lcnt then .error .nameOutOfEntry
        else enextLoop v ep fuel dp (readLongName buf ((lcnt - 1) * charLongName) de)
          ((off + 32) % 2 ^ 32) cnt (live && !last) (if last then some (lcnt + 1) else count)
      else
        .ok ⟨dp, { ep with
          filename := nameOf (if live then readShortName buf de else buf)
          attr := slotAttr de
          firstClus := sneFirstClus de
          fileSize := sneFileSize de
          curClus := sneFirstClus de
          clusCnt := 0 }, if live then some 1 else count, 1⟩

/-- Rounds of `enext` on an acyclic directory chain: one for each slot and one for its end. -/
def enextFuel (v : Volume) : Nat := v.geom.dataClusCnt * (v.geom.bytsPerClus / 32) + 1

/-- `enext` (`fat32.c:784–825`). -/
def enext (v : Volume) (dp ep : Dirent) (off : Nat) (count : Option Nat) :
    Except Panic EnextOut :=
  if dp.attr &&& attrDirectory = 0 then .error .enextNotDir
  else if ep.valid ≠ 0 then .error .enextEpValid
  else if off % 32 ≠ 0 then .error .enextNotAlign
  else if dp.valid ≠ 1 then .ok ⟨dp, ep, count, -1⟩
  else
    let buf : ByteMem := fun x ↦ if x = 256 then ep.attr else 0
    enextLoop v ep (enextFuel v) dp buf off 0 true count

end Xv6K210.Fs
