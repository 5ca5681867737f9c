import Mathlib.Order.Bounds.Defs
import Xv6K210.Base.LittleEndian
import Xv6K210.Base.Loops
import Xv6K210.Base.Runs

/-!
# Trimming an image

Source `tools/burn.py:74–184, 412–423`. The host does not send the free clusters at the end of a
FAT32 image. What is kept ends at the start of the data area or at the end of a cluster, and nothing
that is in use lies behind it.
-/

namespace Xv6K210.Burn.Host

open Base

/-- `SECTOR_SIZE`. -/
def SECTOR_SIZE : Nat := 512

/-- What `fat32_effective_size` raises: `ValueError` with its text, or `struct.error`. -/
inductive TrimErr where
  | value (text : String)
  | struct
  deriving DecidableEq, Repr

/-- `struct.unpack_from` of one unsigned little-endian number. -/
def unpackFrom (width : Nat) (data : List UInt8) (off : Nat) : Except TrimErr Nat :=
  if off + width ≤ data.length then .ok (leNat ((data.drop off).take width)) else .error .struct

/-- `le16`. -/
def le16 : List UInt8 → Nat → Except TrimErr Nat := unpackFrom 2

/-- `le32`. -/
def le32 : List UInt8 → Nat → Except TrimErr Nat := unpackFrom 4

/-- `align_up`. -/
def alignUp (value align : Nat) : Nat := (value + align - 1) / align * align

/-- The fields of the boot sector. -/
structure Bpb where
  bytesPerSector : Nat
  sectorsPerCluster : Nat
  reservedSectors : Nat
  numFats : Nat
  rootEntries : Nat
  totalSectors : Nat
  fatSize : Nat
  rootCluster : Nat
  deriving DecidableEq, Repr

/-- `a or b`. -/
def orElse (a b : Nat) : Nat := if a ≠ 0 then a else b

/-- The fields as `fat32_effective_size` reads them. -/
def readBpb (img : List UInt8) : Except TrimErr Bpb := do
  let bytesPerSector ← le16 img 11
  let sectorsPerCluster := (img.getD 13 0).toNat
  let reservedSectors ← le16 img 14
  let numFats := (img.getD 16 0).toNat
  let rootEntries ← le16 img 17
  let total16 ← le16 img 19
  let total32 ← le32 img 32
  let fatSize16 ← le16 img 22
  let fatSize32 ← le32 img 36
  let rootCluster ← le32 img 44
  .ok { bytesPerSector, sectorsPerCluster, reservedSectors, numFats, rootEntries,
        totalSectors := orElse total16 total32, fatSize := orElse fatSize16 fatSize32, rootCluster }

/-- The sector where the data area begins. -/
def Bpb.dataStartSector (b : Bpb) : Nat := b.reservedSectors + b.numFats * b.fatSize

/-- The sectors of the volume that are in an image of some sectors. -/
def Bpb.volumeSectors (b : Bpb) (imageSectors : Nat) : Nat :=
  min (if b.totalSectors = 0 then imageSectors else b.totalSectors) imageSectors

/-- `info`. -/
structure FatInfo where
  bytesPerSector : Nat
  sectorsPerCluster : Nat
  reservedSectors : Nat
  numFats : Nat
  fatSize : Nat
  dataStartSector : Nat
  totalSectors : Nat
  lastCluster : Nat
  effectiveSectors : Nat
  deriving DecidableEq, Repr

/-- The loop over the entries of the first FAT. -/
def lastCluster (img : List UInt8) (fatStart fatEntries : Nat) : Except TrimErr Nat :=
  forLoop 2 fatEntries (fun cluster last ↦ do
    let entry ← le32 img (fatStart + cluster.toNat * 4)
    if entry &&& 0x0FFFFFFF ≠ 0 then .ok cluster.toNat else .ok last) 0

/-- `fat32_effective_size`. -/
def fat32EffectiveSize (img : List UInt8) : Except TrimErr (Nat × FatInfo) :=
  let fullSize := img.length
  if fullSize < SECTOR_SIZE then .error (.value "image is smaller than one sector")
  else do
    let b ← readBpb img
    if b.bytesPerSector ≠ SECTOR_SIZE then
      .error (.value s!"unsupported sector size {b.bytesPerSector}")
    else if b.sectorsPerCluster = 0 ∨ b.reservedSectors = 0 ∨ b.numFats = 0 then
      .error (.value "invalid FAT BPB")
    else if b.rootEntries ≠ 0 ∨ b.fatSize = 0 ∨ b.rootCluster < 2 then
      .error (.value "image is not FAT32")
    else
      let imageSectors := fullSize / SECTOR_SIZE
      let totalSectors := b.volumeSectors imageSectors
      let fatStart := b.reservedSectors * SECTOR_SIZE
      let dataStart := b.dataStartSector * SECTOR_SIZE
      if dataStart > fullSize ∨ fatStart + b.fatSize * SECTOR_SIZE > fullSize then
        .error (.value "FAT metadata points outside image")
      else
        let dataSectors : Int := totalSectors - b.dataStartSector
        if dataSectors ≤ 0 then .error (.value "image has no FAT data area")
        else do
          let clusterCount := dataSectors.toNat / b.sectorsPerCluster
          let maxCluster := clusterCount + 1
          let fatEntries := min (b.fatSize * SECTOR_SIZE / 4) (maxCluster + 1)
          let last ← lastCluster img fatStart fatEntries
          let effectiveSectors :=
            if last = 0 then b.dataStartSector
            else b.dataStartSector + (last - 2 + 1) * b.sectorsPerCluster
          let effectiveSectors := min effectiveSectors totalSectors
          let effectiveSize := alignUp (effectiveSectors * SECTOR_SIZE) SECTOR_SIZE
          .ok (effectiveSize,
            { bytesPerSector := b.bytesPerSector
              sectorsPerCluster := b.sectorsPerCluster
              reservedSectors := b.reservedSectors
              numFats := b.numFats
              fatSize := b.fatSize
              dataStartSector := b.dataStartSector
              totalSectors
              lastCluster := last
              effectiveSectors })

/-- The image that `main` sends. A `ValueError` disables the trimming. -/
def trimImage (fullImage : Bool) (img : List UInt8) : Except TrimErr (List UInt8) :=
  if fullImage then .ok img
  else
    match fat32EffectiveSize img with
    | .ok (size, _) => .ok (img.take size)
    | .error (.value _) => .ok img
    | .error .struct => .error .struct

/-! ## What is in use -/

/-- The end of a cluster, in bytes. -/
def Bpb.clusterEnd (b : Bpb) (c : Nat) : Nat :=
  (b.dataStartSector + (c - 2 + 1) * b.sectorsPerCluster) * SECTOR_SIZE

/-- The cluster is a data cluster that lies in the volume. -/
def Bpb.IsCluster (b : Bpb) (img : List UInt8) (c : Nat) : Prop :=
  2 ≤ c ∧ b.clusterEnd c ≤ b.volumeSectors (img.length / SECTOR_SIZE) * SECTOR_SIZE

/-- The first FAT has an entry for the cluster, and it is non-zero in its low 28 bits. -/
def Bpb.Used (b : Bpb) (img : List UInt8) (c : Nat) : Prop :=
  c * 4 + 4 ≤ b.fatSize * SECTOR_SIZE ∧
    leNat ((img.drop (b.reservedSectors * SECTOR_SIZE + c * 4)).take 4) &&& 0x0FFFFFFF ≠ 0

/-- The first `size` bytes hold the boot sector, the reserved sectors, the copies of the FAT and the
data clusters that are in use. -/
structure Bpb.Keeps (b : Bpb) (img : List UInt8) (size : Nat) : Prop where
  boot : SECTOR_SIZE ≤ size
  reserved : b.reservedSectors * SECTOR_SIZE ≤ size
  fats : ∀ k < b.numFats, (b.reservedSectors + (k + 1) * b.fatSize) * SECTOR_SIZE ≤ size
  clusters : ∀ c, b.IsCluster img c → b.Used img c → b.clusterEnd c ≤ size

/-- The size is that of the image up to the start of the data area or up to the end of a cluster. -/
def Bpb.Boundary (b : Bpb) (img : List UInt8) (size : Nat) : Prop :=
  size = b.dataStartSector * SECTOR_SIZE ∨ ∃ c, b.IsCluster img c ∧ size = b.clusterEnd c

/-! ## The scan of the FAT -/

private theorem unpackFrom_ok {width off : Nat} {data : List UInt8}
    (h : off + width ≤ data.length) :
    unpackFrom width data off = .ok (leNat ((data.drop off).take width)) := if_pos h

/-- The low 28 bits of an entry of the first FAT. -/
def fatEntry (img : List UInt8) (fatStart c : Nat) : Nat :=
  leNat ((img.drop (fatStart + c * 4)).take 4) &&& 0x0FFFFFFF

/-- Of the clusters `[2, n)`, `last` is the highest with a non-zero entry, or 0 if there is none. -/
def IsLast (img : List UInt8) (fatStart n last : Nat) : Prop :=
  (last = 0 ∨ 2 ≤ last ∧ last < n ∧ fatEntry img fatStart last ≠ 0) ∧
    ∀ c, 2 ≤ c → c < n → last < c → fatEntry img fatStart c = 0

private theorem lastCluster_ok (img : List UInt8) (fatStart : Nat) {n : Nat} (hn : 2 ≤ n)
    (hroom : fatStart + n * 4 ≤ img.length) :
    ∃ last, lastCluster img fatStart n = .ok last ∧ IsLast img fatStart n last := by
  obtain ⟨last, hrun, hlast⟩ := forLoop_invariant
    (fun cluster last ↦ do
      let entry ← le32 img (fatStart + cluster.toNat * 4)
      if entry &&& 0x0FFFFFFF ≠ 0 then .ok cluster.toNat else .ok last)
    (fun c last ↦ IsLast img fatStart c.toNat last) (show (2 : Int) ≤ n by omega)
    (fun c last hlo hhi hlast ↦ by
      obtain ⟨c, rfl⟩ := Int.eq_ofNat_of_zero_le (show 0 ≤ c by omega)
      have hnext : ((c : Int) + 1).toNat = c + 1 := by omega
      rw [Int.toNat_natCast] at hlast
      rw [le32, unpackFrom_ok (by rw [Int.toNat_natCast]; omega), hnext, Int.toNat_natCast]
      change ∃ t, (if fatEntry img fatStart c ≠ 0 then _ else _) = _ ∧ _
      by_cases hentry : fatEntry img fatStart c = 0
      · rw [if_neg (not_not.mpr hentry)]
        refine ⟨last, rfl, hlast.1.imp_right fun h ↦ ⟨h.1, by omega, h.2.2⟩, fun k hk hlt hgt ↦ ?_⟩
        rcases Nat.lt_succ_iff_lt_or_eq.mp hlt with hlt | rfl
        · exact hlast.2 k hk hlt hgt
        · exact hentry
      · rw [if_pos hentry]
        exact ⟨c, rfl, .inr ⟨by omega, by omega, hentry⟩, fun k _ hlt hgt ↦ by omega⟩)
    0 ⟨.inl rfl, fun c hc hlt ↦ by omega⟩
  rw [Int.toNat_natCast] at hlast
  exact ⟨last, hrun, hlast⟩

/-! ## The size -/

/-- The checks that `fat32_effective_size` makes, and what it returns when they pass. -/
structure Sized (img : List UInt8) (b : Bpb) (last size : Nat) : Prop where
  sector : SECTOR_SIZE ≤ img.length
  spc : 0 < b.sectorsPerCluster
  reserved : 0 < b.reservedSectors
  fats : 0 < b.numFats
  fatSize : 0 < b.fatSize
  inside : b.reservedSectors * SECTOR_SIZE + b.fatSize * SECTOR_SIZE ≤ img.length
  data : b.dataStartSector < b.volumeSectors (img.length / SECTOR_SIZE)
  highest : IsLast img (b.reservedSectors * SECTOR_SIZE)
    (min (b.fatSize * SECTOR_SIZE / 4)
      ((b.volumeSectors (img.length / SECTOR_SIZE) - b.dataStartSector) / b.sectorsPerCluster + 2))
    last
  size : size = alignUp (min
    (if last = 0 then b.dataStartSector
      else b.dataStartSector + (last - 2 + 1) * b.sectorsPerCluster)
    (b.volumeSectors (img.length / SECTOR_SIZE)) * SECTOR_SIZE) SECTOR_SIZE

private theorem effectiveSize_ok {img : List UInt8} {size : Nat} {info : FatInfo}
    (h : fat32EffectiveSize img = .ok (size, info)) :
    ∃ b last, readBpb img = .ok b ∧ Sized img b last size := by
  unfold fat32EffectiveSize at h
  dsimp only at h
  by_cases hsector : img.length < SECTOR_SIZE
  · rw [if_pos hsector] at h
    cases h
  rw [if_neg hsector] at h
  obtain ⟨b, hb, h⟩ := bind_eq_ok h
  by_cases hsize : b.bytesPerSector ≠ SECTOR_SIZE
  · rw [if_pos hsize] at h
    cases h
  rw [if_neg hsize] at h
  by_cases hbpb : b.sectorsPerCluster = 0 ∨ b.reservedSectors = 0 ∨ b.numFats = 0
  · rw [if_pos hbpb] at h
    cases h
  rw [if_neg hbpb] at h
  by_cases hfat : b.rootEntries ≠ 0 ∨ b.fatSize = 0 ∨ b.rootCluster < 2
  · rw [if_pos hfat] at h
    cases h
  rw [if_neg hfat] at h
  by_cases hmeta : b.dataStartSector * SECTOR_SIZE > img.length ∨
      b.reservedSectors * SECTOR_SIZE + b.fatSize * SECTOR_SIZE > img.length
  · rw [if_pos hmeta] at h
    cases h
  rw [if_neg hmeta] at h
  by_cases hdata : (b.volumeSectors (img.length / SECTOR_SIZE) : Int) - b.dataStartSector ≤ 0
  · rw [if_pos hdata] at h
    cases h
  rw [if_neg hdata, show ((b.volumeSectors (img.length / SECTOR_SIZE) : Int) -
    b.dataStartSector).toNat = b.volumeSectors (img.length / SECTOR_SIZE) - b.dataStartSector by
      omega] at h
  have h2 : 2 ≤ min (b.fatSize * SECTOR_SIZE / 4)
      ((b.volumeSectors (img.length / SECTOR_SIZE) - b.dataStartSector) / b.sectorsPerCluster +
        2) := by
    refine Nat.le_min.mpr ⟨?_, Nat.le_add_left 2 _⟩
    unfold SECTOR_SIZE
    omega
  obtain ⟨last, hrun, hlast⟩ := lastCluster_ok img
    (b.reservedSectors * SECTOR_SIZE) h2 (by unfold SECTOR_SIZE at *; omega)
  rw [hrun] at h
  obtain ⟨rfl, -⟩ := Prod.mk.inj (Except.ok.inj h)
  exact ⟨b, last, hb, by omega, by omega, by omega, by omega, by omega, by omega, by omega, hlast,
    rfl⟩

private theorem alignUp_mul (n : Nat) :
    alignUp (n * SECTOR_SIZE) SECTOR_SIZE = n * SECTOR_SIZE := by
  unfold alignUp SECTOR_SIZE
  omega

/-- A data cluster in the volume, by its number. -/
theorem isCluster_iff {img : List UInt8} {b : Bpb} {last size : Nat} (h : Sized img b last size)
    (c : Nat) : b.IsCluster img c ↔ 2 ≤ c ∧
      c < (b.volumeSectors (img.length / SECTOR_SIZE) - b.dataStartSector) / b.sectorsPerCluster +
        2 := by
  have hdata := h.data
  have hdiv := Nat.le_div_iff_mul_le h.spc (x := c - 2 + 1)
    (y := b.volumeSectors (img.length / SECTOR_SIZE) - b.dataStartSector)
  unfold Bpb.IsCluster Bpb.clusterEnd
  refine and_congr_right fun hc ↦ ?_
  rw [Nat.mul_le_mul_right_iff (by decide)]
  omega

/-- Later clusters end later. -/
theorem clusterEnd_mono (b : Bpb) {c c' : Nat} (h : c ≤ c') : b.clusterEnd c ≤ b.clusterEnd c' := by
  unfold Bpb.clusterEnd
  exact Nat.mul_le_mul_right _ (Nat.add_le_add_left (Nat.mul_le_mul_right _ (by omega)) _)

private theorem dataStart_le_clusterEnd (b : Bpb) (c : Nat) :
    b.dataStartSector * SECTOR_SIZE ≤ b.clusterEnd c :=
  Nat.mul_le_mul_right _ (Nat.le_add_right _ _)

namespace Sized

variable {img : List UInt8} {b : Bpb} {last size : Nat}

/-- A cluster in use has its entry among those that are scanned. -/
theorem le_last (h : Sized img b last size) {c : Nat} (hc : b.IsCluster img c)
    (hused : b.Used img c) : last ≠ 0 ∧ c ≤ last := by
  obtain ⟨h2, hlt⟩ := (isCluster_iff h c).mp hc
  have hroom := hused.1
  have hle : c ≤ last := by
    by_contra hgt
    exact hused.2 (h.highest.2 c h2 (by omega) (by omega))
  omega

/-- The highest cluster in use. -/
theorem last_used (h : Sized img b last size) (hne : last ≠ 0) :
    b.IsCluster img last ∧ b.Used img last := by
  obtain ⟨h2, hlt, hentry⟩ := h.highest.1.resolve_left hne
  exact ⟨(isCluster_iff h last).mpr ⟨h2, by omega⟩, by omega, hentry⟩

/-- The size is that of a boundary: the minimum with the volume changes nothing. -/
theorem size_eq (h : Sized img b last size) :
    size = if last = 0 then b.dataStartSector * SECTOR_SIZE else b.clusterEnd last := by
  have hsize := h.size
  rw [alignUp_mul] at hsize
  rw [hsize]
  by_cases hne : last = 0
  · rw [if_pos hne, if_pos hne, Nat.min_eq_left (Nat.le_of_lt h.data)]
  · have hin := (h.last_used hne).1.2
    unfold Bpb.clusterEnd at hin
    rw [if_neg hne, if_neg hne, Nat.min_eq_left (Nat.le_of_mul_le_mul_right hin (by decide))]
    rfl

private theorem dataStart_le (h : Sized img b last size) :
    b.dataStartSector * SECTOR_SIZE ≤ size := by
  rw [h.size_eq]
  split
  · exact Nat.le_refl _
  · exact dataStart_le_clusterEnd b last

private theorem boundary (h : Sized img b last size) : b.Boundary img size := by
  rw [h.size_eq]
  split
  next => exact .inl rfl
  next hne => exact .inr ⟨last, (h.last_used hne).1, rfl⟩

private theorem keeps (h : Sized img b last size) : b.Keeps img size := by
  have hstart := h.dataStart_le
  have hreserved := h.reserved
  unfold Bpb.dataStartSector at hstart
  refine ⟨?_, ?_, fun k hk ↦ ?_, fun c hc hused ↦ ?_⟩
  · exact Nat.le_trans (Nat.le_mul_of_pos_left _ (by omega)) hstart
  · exact Nat.le_trans (Nat.mul_le_mul_right _ (Nat.le_add_right _ _)) hstart
  · have hcopies := Nat.add_le_add_left (Nat.mul_le_mul_right b.fatSize hk) b.reservedSectors
    exact Nat.le_trans (Nat.mul_le_mul_right _ hcopies) hstart
  · obtain ⟨hne, hle⟩ := h.le_last hc hused
    rw [h.size_eq, if_neg hne]
    exact clusterEnd_mono b hle

end Sized

/-- `fat32_effective_size` returns the smallest size that ends at the start of the data area or at
the end of a cluster and keeps what is in use. It is a number of whole sectors of the image, and
`main` sends that much. -/
theorem trim_least (img : List UInt8) (size : Nat) (info : FatInfo)
    (h : fat32EffectiveSize img = .ok (size, info)) :
    trimImage false img = .ok (img.take size) ∧
    ∃ b, readBpb img = .ok b ∧ SECTOR_SIZE ∣ size ∧ size ≤ img.length ∧
      IsLeast {n | b.Boundary img n ∧ b.Keeps img n} size := by
  obtain ⟨b, last, hb, hsized⟩ := effectiveSize_ok h
  have hsize := hsized.size
  rw [alignUp_mul] at hsize
  refine ⟨?_, b, hb, ⟨_, hsize.trans (Nat.mul_comm _ _)⟩, ?_, ⟨hsized.boundary, hsized.keeps⟩, ?_⟩
  · unfold trimImage
    rw [h]
    rfl
  · have hvolume : b.volumeSectors (img.length / SECTOR_SIZE) ≤ img.length / SECTOR_SIZE :=
      Nat.min_le_right _ _
    rw [hsize]
    exact Nat.le_trans (Nat.mul_le_mul_right _ (Nat.le_trans (Nat.min_le_right _ _) hvolume))
      (Nat.div_mul_le_self _ _)
  · rintro n ⟨hboundary, hkeeps⟩
    rw [hsized.size_eq]
    split
    next =>
      rcases hboundary with rfl | ⟨c, -, rfl⟩
      · exact Nat.le_refl _
      · exact dataStart_le_clusterEnd b c
    next hne =>
      obtain ⟨hcluster, hused⟩ := hsized.last_used hne
      exact hkeeps.clusters last hcluster hused

/-- An image of five sectors with one cluster in use. -/
def smallImage : List UInt8 :=
  List.replicate 11 0 ++ [0, 2, 1, 1, 0, 1, 0, 0, 5, 0, 0, 1, 0] ++ List.replicate 20 0 ++
    [2, 0, 0, 0] ++ List.replicate 464 0 ++ List.replicate 8 0 ++ [0xFF, 0xFF, 0xFF, 0x0F] ++
    List.replicate 2036 0

/-- Three of the clusters are used. -/
theorem trim_least_small : trimImage false smallImage = .ok (smallImage.take 1536) := by
  have hsize : fat32EffectiveSize smallImage =
      .ok (1536, ⟨512, 1, 1, 1, 1, 2, 5, 2, 3⟩) := by decide +kernel
  exact (trim_least smallImage 1536 _ hsize).1

end Xv6K210.Burn.Host
