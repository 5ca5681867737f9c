import Xv6K210.Fs.Volume
import Xv6K210.Base.ChainForest

/-!
# In-memory entries and their cluster cursor

Source `kernel/include/fat32.h:33–56` and `kernel/fs/fat32.c:291–378,654–664`.
An entry caches a cursor (`cur_clus`, `clus_cnt`) into its cluster chain; `reloc_clus`
moves it, `eread`, `ewrite` and `etrunc` work through it.
-/

namespace Xv6K210.Fs

open Xv6K210.Base

/-- `ATTR_READ_ONLY`. -/
abbrev attrReadOnly : UInt8 := 0x01
/-- `ATTR_DIRECTORY`. -/
abbrev attrDirectory : UInt8 := 0x10
/-- `ATTR_ARCHIVE`. -/
abbrev attrArchive : UInt8 := 0x20
/-- `ATTR_DEVICE`. -/
abbrev attrDevice : UInt8 := 0x40
/-- `ATTR_LONG_NAME`. -/
abbrev attrLongName : UInt8 := 0x0f

/-- `struct dirent` (`fat32.h:33–56`). The name is the C string that `filename` holds; `attr` is
`attribute` and `parent` the cache slot of the parent directory. The device number, the links of the
recency list and the sleep lock are not part of it. -/
structure Dirent where
  filename : List UInt8 := []
  attr : UInt8 := 0
  firstClus : Nat := 0
  fileSize : Nat := 0
  curClus : Nat := 0
  clusCnt : Nat := 0
  dirty : Bool := false
  valid : Int := 0
  ref : Int := 0
  off : Nat := 0
  parent : Option Nat := none
  deriving DecidableEq, Repr

/-- The conversion of a `uint` result to the declared return type `int`. -/
def toI32 (x : Nat) : Int := if x < 2 ^ 31 then x else (x : Int) - 2 ^ 32

/-- The conversion of an `int` result to a `uint`. -/
def toU32 (x : Int) : Nat := (x % 2 ^ 32).toNat

/-- `clus >= FAT32_EOC` with a signed `clus`, as in `reloc_clus`. -/
def isEoc (x : Nat) : Bool := fat32Eoc ≤ x && x < 2 ^ 31

/-- First loop of `reloc_clus` (`fat32.c:294–308`), `k` clusters ahead of the cursor.
The flag is `false` when the chain ended and nothing may be allocated. -/
def relocForward (alloc : Bool) : Nat → Volume → Dirent → Except Panic (Volume × Dirent × Bool)
  | 0, v, e => .ok (v, e, true)
  | k + 1, v, e =>
    let clus := readFat v e.curClus
    if isEoc clus then
      if alloc then
        match allocClus v with
        | .error p => .error p
        | .ok (v', clus') =>
          relocForward alloc k (writeFat v' e.curClus clus')
            { e with curClus := clus', clusCnt := e.clusCnt + 1 }
      else .ok (v, { e with curClus := e.firstClus, clusCnt := 0 }, false)
    else relocForward alloc k v { e with curClus := clus, clusCnt := e.clusCnt + 1 }

/-- Second loop of `reloc_clus` (`fat32.c:312–318`), `k` clusters behind the goal. -/
def relocBack (v : Volume) : Nat → Dirent → Except Panic Dirent
  | 0, e => .ok e
  | k + 1, e =>
    let clus := readFat v e.curClus
    if fat32Eoc ≤ clus then .error .relocClus
    else relocBack v k { e with curClus := clus, clusCnt := e.clusCnt + 1 }

/-- `reloc_clus` (`fat32.c:291–321`): move the cursor to the cluster of `off`. -/
def relocClus (v : Volume) (e : Dirent) (off : Nat) (alloc : Bool) :
    Except Panic (Volume × Dirent × Int) :=
  let clusNum := off / v.geom.bytsPerClus
  match relocForward alloc (clusNum - e.clusCnt) v e with
  | .error p => .error p
  | .ok (v', e', false) => .ok (v', e', -1)
  | .ok (v', e', true) =>
    if clusNum < e'.clusCnt then
      match relocBack v' clusNum { e' with curClus := e'.firstClus, clusCnt := 0 } with
      | .error p => .error p
      | .ok e'' => .ok (v', e'', (off % v.geom.bytsPerClus : Nat))
    else .ok (v', e', (off % v.geom.bytsPerClus : Nat))

/-- The loop of `eread` (`fat32.c:335–344`); each round moves at least one byte. -/
def ereadLoop (x : Xfer) (n : Nat) : Nat → Volume → Dirent → Nat → Nat →
    List UInt8 → Except Panic (Volume × Dirent × Nat × List UInt8)
  | 0, v, e, _, tot, out => .ok (v, e, tot, out)
  | fuel + 1, v, e, off, tot, out =>
    if e.curClus < fat32Eoc ∧ tot < n then
      match relocClus v e off false with
      | .error p => .error p
      | .ok (v', e', _) =>
        let m := min (v.geom.bytsPerClus - off % v.geom.bytsPerClus) (n - tot)
        match rwClus v' e'.curClus x tot (off % v.geom.bytsPerClus) m with
        | .error p => .error p
        | .ok (v'', r, bs) =>
          if r ≠ m then .ok (v'', e', tot, out ++ bs)
          else ereadLoop x n fuel v'' e' ((off + m) % 2 ^ 32) (tot + m) (out ++ bs)
    else .ok (v, e, tot, out)

/-- `eread` (`fat32.c:325–346`): the count it returns and the bytes it delivers to the far end
of `x`. -/
def eread (v : Volume) (e : Dirent) (x : Xfer) (off n : Nat) :
    Except Panic (Volume × Dirent × Int × List UInt8) :=
  if e.fileSize < off ∨ (off + n) % 2 ^ 32 < off ∨ e.attr &&& attrDirectory ≠ 0 then
    .ok (v, e, 0, [])
  else
    let n := if e.fileSize < (off + n) % 2 ^ 32 then e.fileSize - off else n
    match ereadLoop x n n v e off 0 [] with
    | .error p => .error p
    | .ok (v', e', tot, out) => .ok (v', e', toI32 tot, out)

/-- The loop of `ewrite` (`fat32.c:361–370`): the last two numbers are `off` and `tot`. -/
def ewriteLoop (x : Xfer) (n : Nat) : Nat → Volume → Dirent → Nat → Nat →
    Except Panic (Volume × Dirent × Nat × Nat)
  | 0, v, e, off, tot => .ok (v, e, off, tot)
  | fuel + 1, v, e, off, tot =>
    if tot < n then
      match relocClus v e off true with
      | .error p => .error p
      | .ok (v', e', _) =>
        let m := min (v.geom.bytsPerClus - off % v.geom.bytsPerClus) (n - tot)
        match rwClus v' e'.curClus x tot (off % v.geom.bytsPerClus) m with
        | .error p => .error p
        | .ok (v'', r, _) =>
          if r ≠ m then .ok (v'', e', off, tot)
          else ewriteLoop x n fuel v'' e' ((off + m) % 2 ^ 32) (tot + m)
    else .ok (v, e, off, tot)

/-- First cluster of an entry that has none yet (`fat32.c:355–359`). -/
def ewriteFirst (v : Volume) (e : Dirent) : Except Panic (Volume × Dirent) :=
  if e.firstClus = 0 then
    match allocClus v with
    | .error p => .error p
    | .ok (v', clus) =>
      .ok (v', { e with firstClus := clus, curClus := clus, clusCnt := 0, dirty := true })
  else .ok (v, e)

/-- `ewrite` (`fat32.c:349–378`). -/
def ewrite (v : Volume) (e : Dirent) (x : Xfer) (off n : Nat) :
    Except Panic (Volume × Dirent × Int) :=
  if e.fileSize < off ∨ (off + n) % 2 ^ 32 < off ∨ 0xffffffff < off + n ∨
      e.attr &&& attrReadOnly ≠ 0 then .ok (v, e, -1)
  else
    match ewriteFirst v e with
    | .error p => .error p
    | .ok (v, e) =>
      match ewriteLoop x n n v e off 0 with
      | .error p => .error p
      | .ok (v, e, off, tot) =>
        let e := if 0 < n ∧ e.fileSize < off then { e with fileSize := off, dirty := true } else e
        .ok (v, e, toI32 tot)

/-- The loop of `etrunc` (`fat32.c:656–660`). A round frees a cluster or is the last one,
so one round for each data cluster and one more are enough. -/
def etruncLoop : Nat → Volume → Nat → Volume
  | 0, v, _ => v
  | fuel + 1, v, clus =>
    if 2 ≤ clus ∧ clus < fat32Eoc then etruncLoop fuel (freeClus v clus) (readFat v clus) else v

/-- `etrunc` (`fat32.c:654–664`). -/
def etrunc (v : Volume) (e : Dirent) : Volume × Dirent :=
  (etruncLoop (v.geom.dataClusCnt + 2) v e.firstClus,
    { e with fileSize := 0, firstClus := 0, dirty := true })

/-! ### The cursor on a chain -/

/-- An end-of-chain mark: `FAT32_EOC` or above, in the 28 bits of an entry. -/
def EocMark (x : Nat) : Prop := fat32Eoc ≤ x ∧ x < 2 ^ 28

/-- `l` is a chain of data clusters in the table of the volume. -/
structure IsChain (v : Volume) (l : List Nat) : Prop where
  linked : Linked v.fat EocMark l
  inRange : ∀ c ∈ l, v.geom.InRange c

/-- The entry's chain is `l` and its cursor stands on a cluster of it. -/
structure OnChain (e : Dirent) (l : List Nat) : Prop where
  head : l.head? = if e.firstClus = 0 then none else some e.firstClus
  cursor : e.firstClus ≠ 0 → l[e.clusCnt]? = some e.curClus

/-- An entry without first cluster has the empty chain. -/
theorem OnChain.eq_nil {e : Dirent} {l : List Nat} (h : OnChain e l) (he : e.firstClus = 0) :
    l = [] := by
  have := h.head
  rw [if_pos he] at this
  exact List.head?_eq_none_iff.mp this

/-- An entry with a first cluster starts its chain there. -/
theorem OnChain.getElem?_zero {e : Dirent} {l : List Nat} (h : OnChain e l)
    (he : e.firstClus ≠ 0) : l[0]? = some e.firstClus := by
  rw [← List.head?_eq_getElem?, h.head, if_neg he]

/-- Moving the cursor along the chain keeps the entry on it. -/
theorem OnChain.move {e : Dirent} {l : List Nat} (h : OnChain e l) {i c : Nat}
    (hc : l[i]? = some c) : OnChain { e with curClus := c, clusCnt := i } l :=
  ⟨h.head, fun _ ↦ hc⟩

private theorem isEoc_of_mark {x : Nat} (h : EocMark x) : isEoc x = true := by
  have h1 := h.1
  have h2 := h.2
  simp only [isEoc, Bool.and_eq_true, decide_eq_true_eq]
  omega

private theorem isEoc_of_inRange {g : Geom} {x : Nat} (h : g.InRange x) : isEoc x = false := by
  have := h.lt_eoc
  simp only [isEoc, Bool.and_eq_false_iff, decide_eq_false_iff_not]
  omega

private theorem IsChain.readFat_next {v : Volume} {l : List Nat} (hl : IsChain v l)
    {i c d : Nat} (hc : l[i]? = some c) (hd : l[i + 1]? = some d) : readFat v c = d := by
  rw [readFat_of_inRange (hl.inRange c (List.mem_of_getElem? hc))]
  exact hl.linked.next_eq hc hd

private theorem IsChain.readFat_last {v : Volume} {l : List Nat} (hl : IsChain v l)
    {i c : Nat} (hc : l[i]? = some c) (hi : l.length = i + 1) : EocMark (readFat v c) := by
  rw [readFat_of_inRange (hl.inRange c (List.mem_of_getElem? hc))]
  apply hl.linked.stop_last
  rw [List.getLast?_eq_getElem?, hi]
  exact hc

private theorem relocForward_inside {v : Volume} {l : List Nat} (hl : IsChain v l)
    (alloc : Bool) (k c : Nat) (e : Dirent) (hcur : l[e.clusCnt]? = some e.curClus)
    (hc : l[e.clusCnt + k]? = some c) :
    relocForward alloc k v e =
      .ok (v, { e with curClus := c, clusCnt := e.clusCnt + k }, true) := by
  induction k generalizing e with
  | zero =>
    rw [Nat.add_zero, hcur, Option.some.injEq] at hc
    subst hc
    rfl
  | succ k ih =>
    have hlt := (List.getElem?_eq_some_iff.mp hc).1
    obtain ⟨d, hd⟩ : ∃ d, l[e.clusCnt + 1]? = some d :=
      ⟨_, List.getElem?_eq_getElem (by omega)⟩
    have hr := hl.readFat_next hcur hd
    have he := isEoc_of_inRange (hl.inRange d (List.mem_of_getElem? hd))
    simp only [relocForward, hr, he, Bool.false_eq_true, if_false]
    rw [ih { e with curClus := d, clusCnt := e.clusCnt + 1 } hd
      (by rw [← hc]; congr 1; simp only; omega)]
    simp only [Nat.add_assoc, Nat.add_comm 1 k]

private theorem relocForward_past {v : Volume} {l : List Nat} (hl : IsChain v l)
    (k : Nat) (e : Dirent) (hcur : l[e.clusCnt]? = some e.curClus)
    (hk : l.length ≤ e.clusCnt + k) :
    relocForward false k v e =
      .ok (v, { e with curClus := e.firstClus, clusCnt := 0 }, false) := by
  have hlt := (List.getElem?_eq_some_iff.mp hcur).1
  induction k generalizing e with
  | zero => omega
  | succ k ih =>
    by_cases hlast : l.length = e.clusCnt + 1
    · simp [relocForward, isEoc_of_mark (hl.readFat_last hcur hlast)]
    · obtain ⟨d, hd⟩ : ∃ d, l[e.clusCnt + 1]? = some d :=
        ⟨_, List.getElem?_eq_getElem (by omega)⟩
      have hr := hl.readFat_next hcur hd
      have he := isEoc_of_inRange (hl.inRange d (List.mem_of_getElem? hd))
      simp only [relocForward, hr, he, Bool.false_eq_true, if_false]
      rw [ih { e with curClus := d, clusCnt := e.clusCnt + 1 } hd (by simp only; omega)
        (by simp only; omega)]

private theorem relocBack_inside {v : Volume} {l : List Nat} (hl : IsChain v l)
    (k c : Nat) (e : Dirent) (hcur : l[e.clusCnt]? = some e.curClus)
    (hc : l[e.clusCnt + k]? = some c) :
    relocBack v k e = .ok { e with curClus := c, clusCnt := e.clusCnt + k } := by
  induction k generalizing e with
  | zero =>
    rw [Nat.add_zero, hcur, Option.some.injEq] at hc
    subst hc
    rfl
  | succ k ih =>
    have hlt := (List.getElem?_eq_some_iff.mp hc).1
    obtain ⟨d, hd⟩ : ∃ d, l[e.clusCnt + 1]? = some d :=
      ⟨_, List.getElem?_eq_getElem (by omega)⟩
    have hr := hl.readFat_next hcur hd
    have hn := (hl.inRange d (List.mem_of_getElem? hd)).lt_eoc
    simp only [relocBack, hr, if_neg (Nat.not_le.mpr hn)]
    rw [ih { e with curClus := d, clusCnt := e.clusCnt + 1 } hd
      (by rw [← hc]; congr 1; simp only; omega)]
    simp only [Nat.add_assoc, Nat.add_comm 1 k]

/-- Inside the chain `reloc_clus` moves the cursor to the cluster of the offset and
touches nothing else, wherever the cursor stood. -/
theorem relocClus_inside {v : Volume} {e : Dirent} {l : List Nat} (hl : IsChain v l)
    (he : OnChain e l) (hf : e.firstClus ≠ 0) (alloc : Bool) {off c : Nat}
    (hc : l[off / v.geom.bytsPerClus]? = some c) :
    relocClus v e off alloc =
      .ok (v, { e with curClus := c, clusCnt := off / v.geom.bytsPerClus },
        (off % v.geom.bytsPerClus : Nat)) := by
  have hcur := he.cursor hf
  by_cases hle : e.clusCnt ≤ off / v.geom.bytsPerClus
  · have hk : e.clusCnt + (off / v.geom.bytsPerClus - e.clusCnt) =
        off / v.geom.bytsPerClus := by omega
    simp only [relocClus, relocForward_inside hl alloc _ c e hcur (by rw [hk]; exact hc), hk,
      Nat.lt_irrefl, if_false]
  · have hk : off / v.geom.bytsPerClus - e.clusCnt = 0 := by omega
    have hlt : off / v.geom.bytsPerClus < e.clusCnt := by omega
    simp only [relocClus, hk, relocForward, if_pos hlt,
      relocBack_inside hl _ c { e with curClus := e.firstClus, clusCnt := 0 }
        (he.getElem?_zero hf) (by rw [Nat.zero_add]; exact hc), Nat.zero_add]

/-- Past the end of the chain, without allocation, `reloc_clus` rewinds the cursor. -/
theorem relocClus_past {v : Volume} {e : Dirent} {l : List Nat} (hl : IsChain v l)
    (he : OnChain e l) (hf : e.firstClus ≠ 0) {off : Nat}
    (hc : l.length ≤ off / v.geom.bytsPerClus) :
    relocClus v e off false =
      .ok (v, { e with curClus := e.firstClus, clusCnt := 0 }, -1) := by
  have hcur := he.cursor hf
  have hlt := (List.getElem?_eq_some_iff.mp hcur).1
  simp only [relocClus, relocForward_past hl (off / v.geom.bytsPerClus - e.clusCnt) e hcur
    (by omega)]

private theorem relocForward_last {v : Volume} {l : List Nat} (hl : IsChain v l)
    (k : Nat) {z : Nat} (e : Dirent) (hcur : l[e.clusCnt]? = some e.curClus)
    (hz : l.getLast? = some z) (hk : l.length ≤ e.clusCnt + k) :
    relocForward true k v e =
      match allocClus v with
      | .error p => .error p
      | .ok (v', c) => relocForward true (e.clusCnt + k - l.length) (writeFat v' z c)
          { e with curClus := c, clusCnt := l.length } := by
  have hlt := (List.getElem?_eq_some_iff.mp hcur).1
  induction k generalizing e with
  | zero => omega
  | succ k ih =>
    by_cases hlast : l.length = e.clusCnt + 1
    · have hzc : e.curClus = z := by
        rw [List.getLast?_eq_getElem?, hlast, Nat.add_sub_cancel, hcur] at hz
        exact Option.some.inj hz
      have hk' : e.clusCnt + (k + 1) - l.length = k := by omega
      have heoc := isEoc_of_mark (hl.readFat_last hcur hlast)
      rw [hk', ← hzc, hlast]
      simp only [relocForward, heoc, if_true]
    · obtain ⟨d, hd⟩ : ∃ d, l[e.clusCnt + 1]? = some d :=
        ⟨_, List.getElem?_eq_getElem (by omega)⟩
      have hr := hl.readFat_next hcur hd
      have he := isEoc_of_inRange (hl.inRange d (List.mem_of_getElem? hd))
      simp only [relocForward, hr, he, Bool.false_eq_true, if_false]
      rw [ih { e with curClus := d, clusCnt := e.clusCnt + 1 } hd (by simp only; omega)
        (by simp only; omega)]
      simp only [Nat.add_assoc, Nat.add_comm 1 k]

/-- Past the end of the chain, with allocation, `reloc_clus` links one new cluster behind
the last one and goes on from there. -/
theorem relocClus_grow {v : Volume} {e : Dirent} {l : List Nat} (hl : IsChain v l)
    (he : OnChain e l) (hf : e.firstClus ≠ 0) {off z : Nat} (hz : l.getLast? = some z)
    (hc : l.length ≤ off / v.geom.bytsPerClus) :
    relocClus v e off true =
      match allocClus v with
      | .error p => .error p
      | .ok (v', c) => relocClus (writeFat v' z c) { e with curClus := c, clusCnt := l.length }
          off true := by
  have hcur := he.cursor hf
  have hlt := (List.getElem?_eq_some_iff.mp hcur).1
  rw [relocClus, relocForward_last hl _ e hcur hz (by omega)]
  cases ha : allocClus v with
  | error p => rfl
  | ok r =>
    have hg : (writeFat r.1 z r.2).geom = v.geom := by
      rw [writeFat_geom, (allocClus_eq_ok ha).2]
      rfl
    have hk : e.clusCnt + (off / v.geom.bytsPerClus - e.clusCnt) - l.length =
        off / v.geom.bytsPerClus - l.length := by omega
    simp only [relocClus, hg, hk]

end Xv6K210.Fs
