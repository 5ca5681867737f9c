import Mathlib.Algebra.Group.Int.Defs
import Mathlib.Algebra.Group.Nat.Defs
import Xv6K210.Base.ByteMem
import Mathlib.Logic.Function.Basic

/-!
# FAT32 volume: geometry, allocation table and cluster transfers

Source `kernel/fs/fat32.c:41–282`. A volume is the boot-sector geometry, the
first allocation table as a map from cluster number to 32-bit entry, and the card's bytes
as the buffer cache presents them. Unsigned 32-bit sums that can leave the range carry an
explicit `% 2 ^ 32`; a kernel `panic` is an `Except` error.
-/

namespace Xv6K210.Fs

open Xv6K210.Base Function

/-- `BSIZE`, which `fat32_init` also requires of `byts_per_sec`. -/
abbrev bsize : Nat := 512

/-- `FAT32_EOC`: the least end-of-chain mark. -/
abbrev fat32Eoc : Nat := 0x0ffffff8

/-- FAT entries in one sector, `byts_per_sec / sizeof(uint32)`. -/
abbrev entPerSec : Nat := 128

/-- The panics that the file-system layer can raise. -/
inductive Panic where
  /-- `no clusters` in `alloc_clus` -/
  | noClusters
  /-- `offset out of range` in `rw_clus` -/
  | offsetOutOfRange
  /-- `reloc_clus` -/
  | relocClus
  /-- `emake: not dir` -/
  | emakeNotDir
  /-- `emake: not aligned` -/
  | emakeNotAligned
  /-- `enext not dir` -/
  | enextNotDir
  /-- `enext ep valid` -/
  | enextEpValid
  /-- `enext not align` -/
  | enextNotAlign
  /-- a store through the null `count` pointer of `enext` -/
  | nullCount
  /-- a long-name slot whose number puts its characters outside of the entry -/
  | nameOutOfEntry
  /-- `enext` on a directory chain without end -/
  | enextDiverges
  /-- `elock`, on a null entry or one without references -/
  | elock
  /-- `short filewrite` -/
  | shortFilewrite
  deriving DecidableEq, Repr

/-- Boot-sector geometry as `fat32_init` (`fat32.c:72–128`) keeps it, with what a FAT32
volume guarantees: the table has an entry for each cluster, the sectors are numbered in
32 bits, and no cluster number is an end-of-chain mark. -/
structure Geom where
  secPerClus : Nat
  rsvdSecCnt : Nat
  fatCnt : Nat
  fatSz : Nat
  totSec : Nat
  rootClus : Nat
  secPerClus_pos : 0 < secPerClus
  secPerClus_lt : secPerClus < 256
  fatCnt_pos : 0 < fatCnt
  totSec_lt : totSec < 2 ^ 32
  firstData_le : rsvdSecCnt + fatCnt * fatSz ≤ totSec
  fat_covers : (totSec - (rsvdSecCnt + fatCnt * fatSz)) / secPerClus + 2 ≤ fatSz * entPerSec
  clus_lt_eoc : (totSec - (rsvdSecCnt + fatCnt * fatSz)) / secPerClus + 1 < fat32Eoc

namespace Geom

/-- `fat.first_data_sec`. -/
def firstDataSec (g : Geom) : Nat := g.rsvdSecCnt + g.fatCnt * g.fatSz

/-- `fat.data_clus_cnt`. -/
def dataClusCnt (g : Geom) : Nat := (g.totSec - g.firstDataSec) / g.secPerClus

/-- `fat.byts_per_clus`. -/
def bytsPerClus (g : Geom) : Nat := g.secPerClus * bsize

/-- `first_sec_of_clus` (`fat32.c:150–153`); the subtraction wraps for clusters 0 and 1. -/
def firstSecOfClus (g : Geom) (cluster : Nat) : Nat :=
  ((cluster + (2 ^ 32 - 2)) * g.secPerClus + g.firstDataSec) % 2 ^ 32

/-- The data clusters of the volume, numbered from 2. -/
def InRange (g : Geom) (c : Nat) : Prop := 2 ≤ c ∧ c ≤ g.dataClusCnt + 1

instance (g : Geom) (c : Nat) : Decidable (g.InRange c) := inferInstanceAs (Decidable (_ ∧ _))

/-- Byte address on the card of the first byte of a cluster. -/
def clusAddr (g : Geom) (c : Nat) : Nat := bsize * g.firstSecOfClus c

/-- A cluster has at least one sector. -/
theorem bytsPerClus_pos (g : Geom) : 0 < g.bytsPerClus :=
  Nat.mul_pos g.secPerClus_pos (by decide)

/-- The cluster size is far below the 32-bit bound. -/
theorem bytsPerClus_lt (g : Geom) : g.bytsPerClus < 2 ^ 18 := by
  have h := g.secPerClus_lt
  simp only [bytsPerClus, bsize]
  omega

/-- Data clusters are never end-of-chain marks. -/
theorem InRange.lt_eoc {g : Geom} {c : Nat} (h : g.InRange c) : c < fat32Eoc :=
  Nat.lt_of_le_of_lt h.2 g.clus_lt_eoc

/-- Data clusters have an entry in the table. -/
theorem InRange.lt_fat {g : Geom} {c : Nat} (h : g.InRange c) : c < g.fatSz * entPerSec :=
  Nat.lt_of_lt_of_le (Nat.lt_succ_of_le h.2) g.fat_covers

/-- The sectors of a data cluster lie inside the volume, so their numbers do not wrap. -/
theorem sec_bound {g : Geom} {c : Nat} (h : g.InRange c) :
    (c - 2) * g.secPerClus + g.firstDataSec + g.secPerClus ≤ g.totSec := by
  have hc : c - 2 + 1 ≤ g.dataClusCnt := by
    have := h.1
    have := h.2
    omega
  have hm : (c - 2 + 1) * g.secPerClus ≤ g.totSec - g.firstDataSec :=
    calc (c - 2 + 1) * g.secPerClus ≤ g.dataClusCnt * g.secPerClus :=
          Nat.mul_le_mul_right _ hc
      _ ≤ g.totSec - g.firstDataSec := Nat.div_mul_le_self _ _
  have hf : g.firstDataSec ≤ g.totSec := g.firstData_le
  rw [Nat.add_mul, Nat.one_mul] at hm
  omega

/-- The first sector of a data cluster, without wrap-around. -/
theorem firstSecOfClus_eq {g : Geom} {c : Nat} (h : g.InRange c) :
    g.firstSecOfClus c = (c - 2) * g.secPerClus + g.firstDataSec := by
  have hb := sec_bound h
  have ht := g.totSec_lt
  have hc : c + (2 ^ 32 - 2) = (c - 2) + 2 ^ 32 := by
    have := h.1
    omega
  rw [firstSecOfClus, hc, Nat.add_mul, Nat.add_right_comm, Nat.add_mul_mod_self_left]
  exact Nat.mod_eq_of_lt (by omega)

/-- The last sector number of a data cluster is below the 32-bit bound. -/
theorem firstSecOfClus_add_lt {g : Geom} {c : Nat} (h : g.InRange c) :
    g.firstSecOfClus c + g.secPerClus < 2 ^ 32 := by
  have hb := sec_bound h
  have ht := g.totSec_lt
  rw [firstSecOfClus_eq h]
  omega

/-- Distinct data clusters occupy disjoint parts of the card. -/
theorem clusAddr_disjoint {g : Geom} {c d : Nat} (hc : g.InRange c) (hd : g.InRange d)
    (h : c ≠ d) :
    g.clusAddr c + g.bytsPerClus ≤ g.clusAddr d ∨
      g.clusAddr d + g.bytsPerClus ≤ g.clusAddr c := by
  simp only [clusAddr, bytsPerClus, firstSecOfClus_eq hc, firstSecOfClus_eq hd]
  have hlt : ∀ a b : Nat, a < b → a * g.secPerClus + g.secPerClus ≤ b * g.secPerClus := by
    intro a b hab
    have := Nat.mul_le_mul_right g.secPerClus (Nat.succ_le_of_lt hab)
    rwa [Nat.succ_mul] at this
  have h2 := hc.1
  have h3 := hd.1
  rcases Nat.lt_or_gt_of_ne h with hlt' | hgt
  · left
    have := hlt (c - 2) (d - 2) (by omega)
    rw [Nat.mul_comm g.secPerClus bsize, ← Nat.mul_add]
    exact Nat.mul_le_mul_left _ (by omega)
  · right
    have := hlt (d - 2) (c - 2) (by omega)
    rw [Nat.mul_comm g.secPerClus bsize, ← Nat.mul_add]
    exact Nat.mul_le_mul_left _ (by omega)

end Geom

/-- The mounted volume. -/
structure Volume where
  geom : Geom
  /-- entries of the first FAT, by cluster number -/
  fat : Nat → Nat
  /-- the card, by byte address -/
  card : ByteMem

/-- `read_fat` (`fat32.c:178–192`). -/
def readFat (v : Volume) (cluster : Nat) : Nat :=
  if fat32Eoc ≤ cluster then cluster
  else if v.geom.dataClusCnt + 1 < cluster then 0
  else v.fat cluster

/-- `write_fat` (`fat32.c:199–211`); no caller looks at its result. -/
def writeFat (v : Volume) (cluster content : Nat) : Volume :=
  if v.geom.dataClusCnt + 1 < cluster then v
  else { v with fat := update v.fat cluster content }

/-- `zero_clus` (`fat32.c:213–223`). -/
def zeroClus (v : Volume) (cluster : Nat) : Volume :=
  let zeroSec (card : ByteMem) (i : Nat) : ByteMem :=
    fill card (bsize * ((v.geom.firstSecOfClus cluster + i) % 2 ^ 32)) bsize 0
  { v with card := (List.range v.geom.secPerClus).foldl zeroSec v.card }

/-- The scan of `alloc_clus` (`fat32.c:231–244`): sector by sector, the first zero entry. -/
def allocScan (v : Volume) : Option Nat :=
  (List.range v.geom.fatSz).findSome? fun i ↦
    ((List.range entPerSec).find? fun j ↦ v.fat (i * entPerSec + j) == 0).map
      fun j ↦ i * entPerSec + j

/-- `alloc_clus` (`kernel/fs/fat32.c:225–246`): mark the first free entry as an end of chain and
zero the cluster. -/
def allocClus (v : Volume) : Except Panic (Volume × Nat) :=
  match allocScan v with
  | none => .error .noClusters
  | some clus =>
    .ok (zeroClus { v with fat := update v.fat clus (fat32Eoc + 7) } clus, clus)

/-- `free_clus` (`fat32.c:248–251`). -/
def freeClus (v : Volume) (cluster : Nat) : Volume := writeFat v cluster 0

/-- `MAXUVA`: the end of the user addresses. -/
abbrev maxUva : Nat := 0x80000000

/-- Direction and far end of a transfer: a source that yields bytes and faults where it
is `none`, or a destination that faults where it is `false`. For a user buffer, given by its
address, these are by user address. -/
inductive Xfer where
  | write (src : Nat → Option UInt8)
  | read (dst : Nat → Bool)
  /-- from user memory, through `copyin` -/
  | copyin (mem : Nat → Option UInt8) (addr : Nat)
  /-- to user memory, through `copyout` -/
  | copyout (mem : Nat → Bool) (addr : Nat)

/-- `either_copyin`: the bytes copied before the first fault, and whether there was none. -/
def eitherCopyin (src : Nat → Option UInt8) : Nat → Nat → List UInt8 × Bool
  | _, 0 => ([], true)
  | k, m + 1 =>
    match src k with
    | none => ([], false)
    | some b => let r := eitherCopyin src (k + 1) m; (b :: r.1, r.2)

/-- `either_copyout`: the bytes delivered before the first fault, and whether there was none. -/
def eitherCopyout (dst : Nat → Bool) : Nat → List UInt8 → List UInt8 × Bool
  | _, [] => ([], true)
  | k, b :: bs =>
    if dst k then let r := eitherCopyout dst (k + 1) bs; (b :: r.1, r.2) else ([], false)

/-- The test that `copyin` and `copyout` begin with (`vm/vmcopyin.c:35`, `vm/vm.c:661`): `len`
bytes at `va` are not all user addresses. -/
def beyondUser (va len : Nat) : Bool := maxUva ≤ va || maxUva - va < len

/-- `copyin` (`vm/vmcopyin.c:27–60`). -/
def copyin (mem : Nat → Option UInt8) (va len : Nat) : List UInt8 × Bool :=
  if beyondUser va len then ([], false) else eitherCopyin mem va len

/-- `copyout` (`vm/vm.c:654–684`). -/
def copyout (mem : Nat → Bool) (va : Nat) (bs : List UInt8) : List UInt8 × Bool :=
  if beyondUser va bs.length then ([], false) else eitherCopyout mem va bs

/-- One sector of `rw_clus`: `m` bytes at `off` in sector `sec`. A failed copy into the
buffer leaves the bytes before the fault in it. -/
def rwSector (v : Volume) (x : Xfer) (k sec off m : Nat) : Volume × List UInt8 × Bool :=
  match x with
  | .write src =>
    let r := eitherCopyin src k m
    ({ v with card := store v.card (bsize * sec + off) r.1 }, [], r.2)
  | .read dst =>
    let r := eitherCopyout dst k (load v.card (bsize * sec + off) m)
    (v, r.1, r.2)
  | .copyin mem addr =>
    let r := copyin mem (addr + k) m
    ({ v with card := store v.card (bsize * sec + off) r.1 }, [], r.2)
  | .copyout mem addr =>
    let r := copyout mem (addr + k) (load v.card (bsize * sec + off) m)
    (v, r.1, r.2)

/-- The loop of `rw_clus` (`fat32.c:263–280`). Every round moves at least one byte, so `n`
rounds are enough. -/
def rwLoop (x : Xfer) (k n : Nat) : Nat → Volume → Nat → Nat → Nat → List UInt8 →
    Volume × Nat × List UInt8
  | 0, v, _, _, tot, out => (v, tot, out)
  | fuel + 1, v, sec, off, tot, out =>
    if tot < n then
      let m := min (bsize - off % bsize) (n - tot)
      let r := rwSector v x (k + tot) sec (off % bsize) m
      if r.2.2 then
        rwLoop x k n fuel r.1 ((sec + 1) % 2 ^ 32) (off + m) (tot + m) (out ++ r.2.1)
      else (r.1, tot, out ++ r.2.1)
    else (v, tot, out)

/-- `rw_clus` (`fat32.c:253–282`): the volume, the count it returns and the bytes it
delivers. `k` is the position reached in the far buffer. -/
def rwClus (v : Volume) (cluster : Nat) (x : Xfer) (k off n : Nat) :
    Except Panic (Volume × Nat × List UInt8) :=
  if v.geom.bytsPerClus < (off + n) % 2 ^ 32 then .error .offsetOutOfRange
  else .ok (rwLoop x k n n v ((v.geom.firstSecOfClus cluster + off / bsize) % 2 ^ 32)
    (off % bsize) 0 [])

/-! ### Allocation table -/

/-- Reading the entry of a data cluster. -/
theorem readFat_of_inRange {v : Volume} {c : Nat} (h : v.geom.InRange c) :
    readFat v c = v.fat c := by
  rw [readFat, if_neg (Nat.not_le.mpr h.lt_eoc), if_neg (Nat.not_lt.mpr h.2)]

/-- Writing the entry of a data cluster. -/
theorem writeFat_of_inRange {v : Volume} {c x : Nat} (h : v.geom.InRange c) :
    writeFat v c x = { v with fat := update v.fat c x } := by
  rw [writeFat, if_neg (Nat.not_lt.mpr h.2)]

/-- `write_fat` keeps the geometry. -/
@[simp] theorem writeFat_geom (v : Volume) (c x : Nat) : (writeFat v c x).geom = v.geom := by
  unfold writeFat
  split <;> rfl

/-- `write_fat` keeps the card. -/
@[simp] theorem writeFat_card (v : Volume) (c x : Nat) : (writeFat v c x).card = v.card := by
  unfold writeFat
  split <;> rfl

/-- `write_fat` changes no other entry. -/
theorem writeFat_fat_of_ne (v : Volume) {c x d : Nat} (h : d ≠ c) :
    (writeFat v c x).fat d = v.fat d := by
  unfold writeFat
  split
  · rfl
  · exact update_of_ne h _ _

/-- `zero_clus` keeps the table. -/
@[simp] theorem zeroClus_fat (v : Volume) (c : Nat) : (zeroClus v c).fat = v.fat := rfl

/-- `zero_clus` keeps the geometry. -/
@[simp] theorem zeroClus_geom (v : Volume) (c : Nat) : (zeroClus v c).geom = v.geom := rfl

private theorem foldl_fill_apply (base x : Nat) : ∀ (n : Nat) (card : ByteMem),
    base + n < 2 ^ 32 →
    (List.range n).foldl (fun card i ↦ fill card (bsize * ((base + i) % 2 ^ 32)) bsize 0) card x =
      if bsize * base ≤ x ∧ x < bsize * base + n * bsize then 0 else card x
  | 0, card, _ => by
    rw [List.range_zero, List.foldl_nil, if_neg (by omega)]
  | n + 1, card, h => by
    rw [List.range_succ, List.foldl_append, List.foldl_cons, List.foldl_nil,
      Nat.mod_eq_of_lt (by omega)]
    have hn : bsize * (base + n) = bsize * base + n * bsize := by
      rw [Nat.mul_add, Nat.mul_comm bsize n]
    have hs : (n + 1) * bsize = n * bsize + bsize := Nat.succ_mul n bsize
    have ih := foldl_fill_apply base x n card (by omega)
    by_cases hlast : bsize * (base + n) ≤ x ∧ x < bsize * (base + n) + bsize
    · have hin : bsize * base ≤ x ∧ x < bsize * base + (n + 1) * bsize := by omega
      rw [fill_apply_mem _ _ hlast, if_pos hin]
    · rw [fill_apply_of_not_mem _ _ (by omega), ih]
      have hiff : (bsize * base ≤ x ∧ x < bsize * base + n * bsize) ↔
          (bsize * base ≤ x ∧ x < bsize * base + (n + 1) * bsize) := by omega
      simp only [hiff]

/-- `zero_clus` zeroes exactly the bytes of a data cluster. -/
theorem zeroClus_card {v : Volume} {c : Nat} (h : v.geom.InRange c) (x : Nat) :
    (zeroClus v c).card x =
      if v.geom.clusAddr c ≤ x ∧ x < v.geom.clusAddr c + v.geom.bytsPerClus then 0
      else v.card x :=
  foldl_fill_apply _ x _ v.card (Geom.firstSecOfClus_add_lt h)

private theorem find?_range_least {p : Nat → Bool} {n j : Nat}
    (h : (List.range n).find? p = some j) : j < n ∧ p j = true ∧ ∀ i < j, p i = false := by
  rw [List.find?_range_eq_some] at h
  obtain ⟨hp, hj, hl⟩ := h
  exact ⟨List.mem_range.mp hj, hp, fun i hi ↦ by simpa using hl i hi⟩

private theorem scan_below {v : Volume} {n i : Nat}
    (h : ∀ k < n, (List.range entPerSec).find? (fun j ↦ v.fat (k * entPerSec + j) == 0) = none)
    (hi : i < n * entPerSec) : v.fat i ≠ 0 := by
  have hd : i / entPerSec < n := Nat.div_lt_of_lt_mul (by rwa [Nat.mul_comm])
  have hm : i % entPerSec < entPerSec := Nat.mod_lt _ (by decide)
  have hn := List.find?_eq_none.mp (h _ hd) (i % entPerSec) (List.mem_range.mpr hm)
  rw [Nat.div_add_mod'] at hn
  simpa using hn

/-- A successful scan yields the least free entry of the table. -/
theorem allocScan_eq_some {v : Volume} {c : Nat} (h : allocScan v = some c) :
    v.fat c = 0 ∧ c < v.geom.fatSz * entPerSec ∧ ∀ d < c, v.fat d ≠ 0 := by
  unfold allocScan at h
  rw [List.findSome?_eq_some_iff] at h
  obtain ⟨l1, i, l2, hr, hi, hl⟩ := h
  rw [Option.map_eq_some_iff] at hi
  obtain ⟨j, hj, rfl⟩ := hi
  obtain ⟨hjn, hz, hleast⟩ := find?_range_least hj
  have hlen : l1.length = i := by
    have := congrArg (fun l ↦ l[l1.length]?) hr
    simp only [List.getElem?_append_right (Nat.le_refl _), Nat.sub_self,
      List.getElem?_cons_zero] at this
    rw [List.getElem?_eq_some_iff] at this
    obtain ⟨_, hx⟩ := this
    simpa using hx
  have hin : i < v.geom.fatSz := by
    have := congrArg List.length hr
    simp only [List.length_range, List.length_append, List.length_cons] at this
    omega
  have hl1 : ∀ k < i, k ∈ l1 := by
    intro k hk
    have hg := congrArg (fun l ↦ l[k]?) hr
    simp only [List.getElem?_append_left (show k < l1.length by omega)] at hg
    rw [List.getElem?_range (by omega)] at hg
    exact List.mem_of_getElem? hg.symm
  refine ⟨by simpa using hz, ?_, ?_⟩
  · calc i * entPerSec + j < i * entPerSec + entPerSec := Nat.add_lt_add_left hjn _
      _ = (i + 1) * entPerSec := by rw [Nat.add_mul, Nat.one_mul]
      _ ≤ v.geom.fatSz * entPerSec := Nat.mul_le_mul_right _ hin
  · intro d hd
    by_cases hdi : d < i * entPerSec
    · apply scan_below (n := i) _ hdi
      intro k hk
      simpa using hl k (hl1 k hk)
    · have := hleast (d - i * entPerSec) (by omega)
      rw [show i * entPerSec + (d - i * entPerSec) = d by omega] at this
      simpa using this

/-- A failed scan means that the table has no free entry. -/
theorem allocScan_eq_none {v : Volume} (h : allocScan v = none) :
    ∀ d < v.geom.fatSz * entPerSec, v.fat d ≠ 0 := by
  intro d hd
  unfold allocScan at h
  rw [List.findSome?_eq_none_iff] at h
  apply scan_below (n := v.geom.fatSz) _ hd
  intro k hk
  simpa using h k (List.mem_range.mpr hk)

/-- What `alloc_clus` does when it returns. -/
theorem allocClus_eq_ok {v v' : Volume} {c : Nat} (h : allocClus v = .ok (v', c)) :
    allocScan v = some c ∧
      v' = zeroClus { v with fat := update v.fat c (fat32Eoc + 7) } c := by
  unfold allocClus at h
  split at h
  · cases h
  · next hs =>
    simp only [Except.ok.injEq, Prod.mk.injEq] at h
    obtain ⟨hv, rfl⟩ := h
    exact ⟨hs, hv.symm⟩

/-! ### Cluster transfers -/

@[simp] private theorem rwSector_fat (v : Volume) (x : Xfer) (k sec off m : Nat) :
    (rwSector v x k sec off m).1.fat = v.fat := by
  cases x <;> rfl

@[simp] private theorem rwSector_geom (v : Volume) (x : Xfer) (k sec off m : Nat) :
    (rwSector v x k sec off m).1.geom = v.geom := by
  cases x <;> rfl

private theorem rwLoop_keeps (x : Xfer) (k n : Nat) : ∀ (fuel : Nat) (v : Volume)
    (sec off tot : Nat) (out : List UInt8),
    (rwLoop x k n fuel v sec off tot out).1.fat = v.fat ∧
      (rwLoop x k n fuel v sec off tot out).1.geom = v.geom
  | 0, _, _, _, _, _ => ⟨rfl, rfl⟩
  | fuel + 1, v, sec, off, tot, out => by
    simp only [rwLoop]
    split
    · split
      · have ih := rwLoop_keeps x k n fuel
          (rwSector v x (k + tot) sec (off % bsize) (min (bsize - off % bsize) (n - tot))).1
          ((sec + 1) % 2 ^ 32) (off + min (bsize - off % bsize) (n - tot))
          (tot + min (bsize - off % bsize) (n - tot))
          (out ++ (rwSector v x (k + tot) sec (off % bsize)
            (min (bsize - off % bsize) (n - tot))).2.1)
        rwa [rwSector_fat, rwSector_geom] at ih
      · exact ⟨rwSector_fat .., rwSector_geom ..⟩
    · exact ⟨rfl, rfl⟩

/-- A transfer changes neither the table nor the geometry. -/
theorem rwClus_keeps {v v' : Volume} {c : Nat} {x : Xfer} {k off n r : Nat}
    {out : List UInt8} (h : rwClus v c x k off n = .ok (v', r, out)) :
    v'.fat = v.fat ∧ v'.geom = v.geom := by
  unfold rwClus at h
  split at h
  · cases h
  · injection h with h
    have hk := rwLoop_keeps x k n n v
      ((v.geom.firstSecOfClus c + off / bsize) % 2 ^ 32) (off % bsize) 0 []
    rwa [h] at hk

private theorem eitherCopyin_some (d : ByteMem) : ∀ k m : Nat,
    eitherCopyin (fun i ↦ some (d i)) k m = (load d k m, true)
  | _, 0 => rfl
  | k, m + 1 => by
    rw [eitherCopyin, eitherCopyin_some d (k + 1) m, Nat.add_comm m 1, load_add]
    rfl

private theorem eitherCopyout_true : ∀ (k : Nat) (bs : List UInt8),
    eitherCopyout (fun _ ↦ true) k bs = (bs, true)
  | _, [] => rfl
  | k, b :: bs => by
    rw [eitherCopyout, if_pos rfl, eitherCopyout_true (k + 1) bs]

private theorem rwLoop_done (x : Xfer) (k n : Nat) (fuel : Nat) (v : Volume) (sec off : Nat)
    (out : List UInt8) : rwLoop x k n fuel v sec off n out = (v, n, out) := by
  cases fuel <;> simp [rwLoop]

-- The sectors of the transfer follow each other on the card, so each round continues
-- at the address where the one before it stopped.
private theorem round_addr (sec off : Nat) {tot n : Nat} (ht : tot < n)
    (hlast : ¬ tot + min (bsize - off % bsize) (n - tot) = n) :
    bsize * (sec + 1) + (off + min (bsize - off % bsize) (n - tot)) % bsize =
      bsize * sec + off % bsize + min (bsize - off % bsize) (n - tot) := by
  simp only [bsize] at hlast ⊢
  omega

private theorem rwLoop_write (d : ByteMem) (k n : Nat) : ∀ (fuel : Nat) (v : Volume)
    (sec off tot : Nat) (out : List UInt8), n - tot ≤ fuel → tot ≤ n →
    bsize * sec + off % bsize + (n - tot) ≤ bsize * (2 ^ 32 - 1) →
    rwLoop (.write fun i ↦ some (d i)) k n fuel v sec off tot out =
      ({ v with card := store v.card (bsize * sec + off % bsize) (load d (k + tot) (n - tot)) },
        n, out)
  | 0, v, sec, off, tot, out, hf, ht, _ => by
    have he : tot = n := by omega
    simp [he, rwLoop_done]
  | fuel + 1, v, sec, off, tot, out, hf, ht, hb => by
    by_cases hlt : tot < n
    · have hpos : 0 < min (bsize - off % bsize) (n - tot) := by
        simp only [bsize]
        omega
      have hm : min (bsize - off % bsize) (n - tot) ≤ n - tot := Nat.min_le_right _ _
      rw [rwLoop, if_pos hlt]
      simp only [rwSector, eitherCopyin_some, if_true, List.append_nil]
      have hsec : sec + 1 < 2 ^ 32 := by
        simp only [bsize] at hb
        omega
      rw [Nat.mod_eq_of_lt hsec]
      by_cases hlast : tot + min (bsize - off % bsize) (n - tot) = n
      · have hmn : min (bsize - off % bsize) (n - tot) = n - tot := by omega
        rw [hlast, rwLoop_done, hmn]
      · have ha := round_addr sec off hlt hlast
        rw [rwLoop_write d k n fuel _ _ _ _ _ (by omega) (by omega) (by rw [ha]; omega), ha]
        generalize hmd : min (bsize - off % bsize) (n - tot) = m at *
        have hsplit : n - tot = m + (n - (tot + m)) := by omega
        have hst := store_append v.card (bsize * sec + off % bsize) (load d (k + tot) m)
          (load d (k + tot + m) (n - (tot + m)))
        rw [length_load] at hst
        rw [hsplit, load_add, hst, Nat.add_assoc k tot m]
    · have he : tot = n := by omega
      simp [he, rwLoop_done]

private theorem rwLoop_read (k n : Nat) : ∀ (fuel : Nat) (v : Volume)
    (sec off tot : Nat) (out : List UInt8), n - tot ≤ fuel → tot ≤ n →
    bsize * sec + off % bsize + (n - tot) ≤ bsize * (2 ^ 32 - 1) →
    rwLoop (.read fun _ ↦ true) k n fuel v sec off tot out =
      (v, n, out ++ load v.card (bsize * sec + off % bsize) (n - tot))
  | 0, v, sec, off, tot, out, hf, ht, _ => by
    have he : tot = n := by omega
    simp [he, rwLoop_done]
  | fuel + 1, v, sec, off, tot, out, hf, ht, hb => by
    by_cases hlt : tot < n
    · have hpos : 0 < min (bsize - off % bsize) (n - tot) := by
        simp only [bsize]
        omega
      have hm : min (bsize - off % bsize) (n - tot) ≤ n - tot := Nat.min_le_right _ _
      rw [rwLoop, if_pos hlt]
      simp only [rwSector, eitherCopyout_true, if_true]
      have hsec : sec + 1 < 2 ^ 32 := by
        simp only [bsize] at hb
        omega
      rw [Nat.mod_eq_of_lt hsec]
      by_cases hlast : tot + min (bsize - off % bsize) (n - tot) = n
      · have hmn : min (bsize - off % bsize) (n - tot) = n - tot := by omega
        rw [hlast, rwLoop_done, hmn]
      · have ha := round_addr sec off hlt hlast
        rw [rwLoop_read k n fuel _ _ _ _ _ (by omega) (by omega) (by rw [ha]; omega), ha]
        generalize hmd : min (bsize - off % bsize) (n - tot) = m at *
        have hsplit : n - tot = m + (n - (tot + m)) := by omega
        rw [hsplit, load_add, List.append_assoc]
    · have he : tot = n := by omega
      simp [he, rwLoop_done]

private theorem transfer_start {g : Geom} {c off n : Nat} (hc : g.InRange c)
    (h : off + n ≤ g.bytsPerClus) (hn : 0 < n) :
    (g.firstSecOfClus c + off / bsize) % 2 ^ 32 = g.firstSecOfClus c + off / bsize ∧
      bsize * (g.firstSecOfClus c + off / bsize) + off % bsize % bsize = g.clusAddr c + off ∧
      g.clusAddr c + off + n ≤ bsize * (2 ^ 32 - 1) := by
  have hs := Geom.firstSecOfClus_add_lt hc
  simp only [Geom.bytsPerClus, Geom.clusAddr, bsize] at *
  have hd : off / 512 < g.secPerClus := Nat.div_lt_of_lt_mul (by omega)
  refine ⟨Nat.mod_eq_of_lt (by omega), by omega, by omega⟩

/-- Writing `n` bytes at `off` inside a data cluster stores them at consecutive addresses. -/
theorem rwClus_write {v : Volume} {c k off n : Nat} (d : ByteMem) (hc : v.geom.InRange c)
    (h : off + n ≤ v.geom.bytsPerClus) (hn : 0 < n) :
    rwClus v c (.write fun i ↦ some (d i)) k off n =
      .ok ({ v with card := store v.card (v.geom.clusAddr c + off) (load d k n) }, n, []) := by
  obtain ⟨hs, ha, hb⟩ := transfer_start hc h hn
  have hl := v.geom.bytsPerClus_lt
  rw [rwClus, if_neg (by rw [Nat.mod_eq_of_lt (by omega)]; omega), hs,
    rwLoop_write d k n n v _ _ 0 [] (by omega) (by omega) (by rw [ha]; simpa using hb), ha]
  rfl

/-- Reading `n` bytes at `off` inside a data cluster delivers those at consecutive addresses. -/
theorem rwClus_read {v : Volume} {c k off n : Nat} (hc : v.geom.InRange c)
    (h : off + n ≤ v.geom.bytsPerClus) (hn : 0 < n) :
    rwClus v c (.read fun _ ↦ true) k off n =
      .ok (v, n, load v.card (v.geom.clusAddr c + off) n) := by
  obtain ⟨hs, ha, hb⟩ := transfer_start hc h hn
  have hl := v.geom.bytsPerClus_lt
  rw [rwClus, if_neg (by rw [Nat.mod_eq_of_lt (by omega)]; omega), hs,
    rwLoop_read k n n v _ _ 0 [] (by omega) (by omega) (by rw [ha]; simpa using hb), ha]
  rfl

/-- The sector that a transfer at the offset `-1` starts in: the offset is a 32-bit number, and
it passes the check of `rw_clus` because its sum with the length wraps. -/
def Geom.wildSec (g : Geom) (cluster : Nat) : Nat :=
  (g.firstSecOfClus cluster + (2 ^ 32 - 1) / bsize) % 2 ^ 32

private theorem wrap_check (g : Geom) : ¬ g.bytsPerClus < (2 ^ 32 - 1 + 32) % 2 ^ 32 := by
  have hpos := g.secPerClus_pos
  simp only [Geom.bytsPerClus, bsize]
  omega

-- Two rounds: the last byte of the first sector, and 31 bytes of the next one.
private theorem rwLoop_straddle (x : Xfer) (k : Nat) (v : Volume) {sec next : Nat}
    (hn : (sec + 1) % 2 ^ 32 = next) (h1 : (rwSector v x k sec 511 1).2.2 = true)
    (h2 : (rwSector (rwSector v x k sec 511 1).1 x (k + 1) next 0 31).2.2 = true) :
    rwLoop x k 32 32 v sec 511 0 [] =
      ((rwSector (rwSector v x k sec 511 1).1 x (k + 1) next 0 31).1, 32,
        (rwSector v x k sec 511 1).2.1 ++
          (rwSector (rwSector v x k sec 511 1).1 x (k + 1) next 0 31).2.1) := by
  have hr : ∀ w, rwSector w x (k + 1) next (512 % bsize) (min (bsize - 512 % bsize) (32 - 1)) =
      rwSector w x (k + 1) next 0 31 := fun _ ↦ rfl
  have hs : rwSector v x (k + 0) sec (511 % bsize) (min (bsize - 511 % bsize) (32 - 0)) =
      rwSector v x k sec 511 1 := rfl
  rw [rwLoop, if_pos (by decide)]
  simp only [hs, hn]
  rw [if_pos h1]
  show rwLoop x k 32 31 _ next 512 1 _ = _
  rw [rwLoop, if_pos (by decide)]
  simp only [hr]
  rw [if_pos h2]
  exact rwLoop_done x k 32 30 _ _ _ _

private theorem wild_mod : (2 ^ 32 - 1) % bsize = 511 := by decide

private theorem rwLoop_straddle_read (k : Nat) (v : Volume) {sec next : Nat}
    (hn : (sec + 1) % 2 ^ 32 = next) :
    rwLoop (.read fun _ ↦ true) k 32 32 v sec 511 0 [] =
      (v, 32, load v.card (bsize * sec + 511) 1 ++ load v.card (bsize * next) 31) := by
  have h1 : ∀ (j sec off m : Nat), rwSector v (.read fun _ ↦ true) j sec off m =
      (v, load v.card (bsize * sec + off) m, true) := by
    intro j sec off m
    rw [rwSector, eitherCopyout_true]
  rw [rwLoop_straddle _ k v hn (by rw [h1]) (by rw [h1, h1]), h1, h1, Nat.add_zero]

private theorem rwLoop_straddle_write (k : Nat) (v : Volume) (d : ByteMem) (sec : Nat) {next : Nat}
    (hn : (sec + 1) % 2 ^ 32 = next) : ∃ v',
    rwLoop (.write fun i ↦ some (d i)) k 32 32 v sec 511 0 [] = (v', 32, []) ∧
      v'.card = store (store v.card (bsize * sec + 511) (load d k 1)) (bsize * next)
        (load d (k + 1) 31) := by
  have h1 : ∀ (w : Volume) (j sec off m : Nat), rwSector w (.write fun i ↦ some (d i)) j sec off m =
      ({ w with card := store w.card (bsize * sec + off) (load d j m) }, [], true) := by
    intro w j sec off m
    rw [rwSector, eitherCopyin_some]
  rw [rwLoop_straddle _ k v hn (by rw [h1]) (by rw [h1, h1]), h1, h1]
  exact ⟨_, rfl, rfl⟩

/-- A slot read at the offset `-1`: the last byte of one sector, and the next sector. -/
theorem rwClus_wild_read (v : Volume) (c k : Nat) :
    rwClus v c (.read fun _ ↦ true) k (2 ^ 32 - 1) 32 =
      .ok (v, 32, load v.card (bsize * v.geom.wildSec c + 511) 1 ++
        load v.card (bsize * ((v.geom.wildSec c + 1) % 2 ^ 32)) 31) := by
  rw [rwClus, if_neg (wrap_check v.geom), wild_mod, ← Geom.wildSec, rwLoop_straddle_read k v rfl]

/-- A slot written at the offset `-1`. -/
theorem rwClus_wild_write (v : Volume) (c k : Nat) (d : ByteMem) :
    ∃ v', rwClus v c (.write fun i ↦ some (d i)) k (2 ^ 32 - 1) 32 = .ok (v', 32, []) ∧
      v'.card = store (store v.card (bsize * v.geom.wildSec c + 511) (load d k 1))
        (bsize * ((v.geom.wildSec c + 1) % 2 ^ 32)) (load d (k + 1) 31) := by
  obtain ⟨v', hloop, hcard⟩ := rwLoop_straddle_write k v d (v.geom.wildSec c) rfl
  refine ⟨v', ?_, hcard⟩
  rw [rwClus, if_neg (wrap_check v.geom), wild_mod, ← Geom.wildSec, hloop]

end Xv6K210.Fs
