import Mathlib.Data.List.OfFn
import Xv6K210.Base.LittleEndian

/-!
# The capacity of an SD card

Source `kernel/driver/sdcard.c:91–110` and `sdcard.c:311–372`. The card sends its CSD register, most
significant byte first. The number of sectors is computed from fields of the register; the register
of the largest cards gives a product of 2^32, and the result is 32 bits wide.
-/

namespace Xv6K210.Driver

open Base

/-- The bytes of the CSD register. -/
abbrev Csd := Fin 16 → UInt8

/-! ### The fields, as the driver takes them from the bytes -/

namespace Csd

/-- `csd_ver`. -/
def version (csd : Csd) : UInt8 := (csd 0 >>> 6) &&& 0x03

/-- `c_size` of version 2.0. -/
def cSizeV2 (csd : Csd) : UInt32 :=
  ((csd 7 &&& 0x3F).toUInt32 <<< 16) ||| ((csd 8).toUInt32 <<< 8) ||| (csd 9).toUInt32

/-- `c_size` of version 1.0. -/
def cSizeV1 (csd : Csd) : UInt16 :=
  ((csd 6 &&& 0x03).toUInt16 <<< 10) ||| ((csd 7).toUInt16 <<< 2) ||| ((csd 8).toUInt16 >>> 6)

/-- `c_size_mult`. -/
def cSizeMult (csd : Csd) : UInt8 := ((csd 9 &&& 0x03) <<< 1) ||| (csd 10 >>> 7)

/-- `read_bl_len`. -/
def readBlLen (csd : Csd) : UInt8 := csd 5 &&& 0x0F

/-- `capacity` of version 1.0. The product has 64 bits, as `1UL` has. -/
def capacityV1 (csd : Csd) : UInt32 :=
  ((csd.cSizeV1.toUInt32 + 1).toUInt64 * (1 <<< (csd.cSizeMult.toUInt64 + 2)) *
    (1 <<< csd.readBlLen.toUInt64)).toUInt32

/-- The sectors that are computed from the register, if its version is known. -/
def nsectors (csd : Csd) : Option UInt32 :=
  if csd.version = 1 then some ((csd.cSizeV2 + 1) * 1024)
  else if csd.version = 0 then some (csd.capacityV1 / 512)
  else none

end Csd

/-! ### Reading the register -/

/-- The static variables. -/
structure Sdcard where
  csd : Csd
  csdValid : Bool
  cardNsectors : UInt32

/-- `sd_get_response_R1` on the bytes that the card sends: the position behind the response. -/
def sdGetResponseR1 (card : Nat → UInt8) : Nat → Nat → Nat
  | 0, pos => pos
  | timeout + 1, pos => if card pos ≠ 0xff then pos + 1 else sdGetResponseR1 card timeout (pos + 1)

/-- The loop of `sd_read_csd`: the position behind the data start token. -/
def awaitToken (card : Nat → UInt8) : Nat → Nat → Option Nat
  | 0, _ => none
  | timeout + 1, pos =>
    if card pos = 0xfe then some (pos + 1) else awaitToken card timeout (pos + 1)

/-- The register that the card sends in time. -/
def sentCsd (card : Nat → UInt8) : Option Csd :=
  (awaitToken card 0xfffffe (sdGetResponseR1 card 0xff 0)).map fun pos i ↦ card (pos + i)

/-- `sd_read_csd`, on the bytes that the card sends behind the command. -/
def sdReadCsd (s : Sdcard) (card : Nat → UInt8) : Sdcard :=
  match sentCsd card with
  | none => s
  | some csd => { csd := csd, csdValid := true, cardNsectors := csd.nsectors.getD s.cardNsectors }

/-- `sdcard_nsectors`. -/
def sdcardNsectors (s : Sdcard) : UInt32 := s.cardNsectors

/-! ### The register and the formula -/

namespace Csd

/-- The register as a number. -/
def register (csd : Csd) : Nat := leNat (List.ofFn csd).reverse

/-- The bits `hi` to `lo` of the register. -/
def field (csd : Csd) (hi lo : Nat) : Nat := csd.register / 2 ^ lo % 2 ^ (hi - lo + 1)

/-- The size in bytes that a register of version 1.0 states. -/
def bytesV1 (csd : Csd) : Nat :=
  (csd.field 73 62 + 1) * 2 ^ (csd.field 49 47 + 2) * 2 ^ csd.field 83 80

/-- The sectors that a register states. -/
def sectors (csd : Csd) : Nat :=
  if csd.field 127 126 = 1 then (csd.field 69 48 + 1) * 1024 else csd.bytesV1 / 512

/-- A number without the low bits, and the low bits. -/
theorem or_eq_add {b : Nat} (i a : Nat) (h : b < 2 ^ i) : a * 2 ^ i ||| b = a * 2 ^ i + b := by
  rw [Nat.mul_comm, Nat.two_pow_add_eq_or_of_lt h]

/-- A number that is shifted has as many more bits. -/
theorem shifted_lt {a n : Nat} (i k : Nat) (h : a < 2 ^ n) (hk : n + i ≤ k) :
    a * 2 ^ i < 2 ^ k := by
  have hlt : a * 2 ^ i < 2 ^ n * 2 ^ i := Nat.mul_lt_mul_of_pos_right h (Nat.two_pow_pos i)
  rw [← Nat.pow_add] at hlt
  exact Nat.lt_of_lt_of_le hlt (Nat.pow_le_pow_right (by decide) hk)

/-- A number that is put together from the bits of three bytes. -/
theorem or_or_eq_add {b c : Nat} (i a : Nat) (hb : b < 2 ^ 8) (hc : c < 2 ^ i) :
    a * 2 ^ (i + 8) ||| b * 2 ^ i ||| c = (a * 2 ^ 8 + b) * 2 ^ i + c := by
  have hlt : b * 2 ^ i < 2 ^ (i + 8) := shifted_lt i (i + 8) hb (Nat.add_comm 8 i).le
  have hsum : a * 2 ^ (i + 8) + b * 2 ^ i = (a * 2 ^ 8 + b) * 2 ^ i := by
    rw [Nat.add_mul, Nat.mul_assoc, ← Nat.pow_add, Nat.add_comm 8 i]
  rw [or_eq_add _ _ hlt, hsum, or_eq_add _ _ hc]

private theorem toNat_three (a b c : UInt8) :
    (((a &&& 0x3F).toUInt32 <<< 16) ||| (b.toUInt32 <<< 8) ||| c.toUInt32).toNat =
      (a.toNat % 2 ^ 6 * 2 ^ 8 + b.toNat) * 2 ^ 8 + c.toNat := by
  have hb := b.toNat_lt
  have ha' : a.toNat % 2 ^ 6 * 2 ^ 16 < 2 ^ 32 :=
    shifted_lt 16 32 (Nat.mod_lt _ (Nat.two_pow_pos 6)) (by decide)
  have hb' : b.toNat * 2 ^ 8 < 2 ^ 32 := shifted_lt 8 32 hb (by decide)
  have hbytes : (((a &&& 0x3F).toUInt32 <<< 16) ||| (b.toUInt32 <<< 8) ||| c.toUInt32).toNat =
      a.toNat % 2 ^ 6 * 2 ^ 16 % 2 ^ 32 ||| b.toNat * 2 ^ 8 % 2 ^ 32 ||| c.toNat := by
    simp [Nat.shiftLeft_eq, Nat.and_two_pow_sub_one_eq_mod _ 6]
  rw [hbytes, Nat.mod_eq_of_lt ha', Nat.mod_eq_of_lt hb', or_or_eq_add 8 _ hb c.toNat_lt]

variable (csd : Csd)

/-- A field begins in a byte of the register. -/
theorem field_eq {hi bit : Nat} (k lo width : Nat) (hbit : bit = 8 * k + lo)
    (hwidth : hi - bit + 1 = width) :
    csd.field hi bit = leNat ((List.ofFn csd).reverse.drop k) / 2 ^ lo % 2 ^ width := by
  have hpow : 2 ^ bit = 256 ^ k * 2 ^ lo := by
    rw [hbit, Nat.pow_add, Nat.pow_mul]
  rw [field, register, leNat_drop, hpow, Nat.div_div_eq_div_mul, hwidth]

private theorem version_toNat : csd.version.toNat = csd.field 127 126 := by
  have hfield : csd.field 127 126 = ((csd 0).toNat + 256 * 0) / 2 ^ 6 % 2 ^ 2 :=
    csd.field_eq 15 6 2 rfl rfl
  rw [hfield]
  simp [version, Nat.shiftRight_eq_div_pow, Nat.and_two_pow_sub_one_eq_mod _ 2]

private theorem cSizeV2_toNat : csd.cSizeV2.toNat = csd.field 69 48 := by
  have hfield : csd.field 69 48 = ((csd 9).toNat + 256 * ((csd 8).toNat + 256 * ((csd 7).toNat +
      256 * leNat ((List.ofFn csd).reverse.drop 9)))) / 2 ^ 0 % 2 ^ 22 := csd.field_eq 6 0 22 rfl
        rfl
  rw [hfield, cSizeV2, toNat_three]
  have h8 := (csd 8).toNat_lt
  have h9 := (csd 9).toNat_lt
  generalize (csd 7).toNat = a at *
  generalize (csd 8).toNat = b at *
  generalize (csd 9).toNat = c at *
  omega

private theorem cSizeV1_toNat : csd.cSizeV1.toNat = csd.field 73 62 := by
  have hfield : csd.field 73 62 = ((csd 8).toNat + 256 * ((csd 7).toNat + 256 * ((csd 6).toNat +
      256 * leNat ((List.ofFn csd).reverse.drop 10)))) / 2 ^ 6 % 2 ^ 12 := csd.field_eq 7 6 12 rfl
        rfl
  have h6 : (csd 6).toNat % 2 ^ 2 * 2 ^ 10 < 2 ^ 16 :=
    shifted_lt 10 16 (Nat.mod_lt _ (Nat.two_pow_pos 2)) (by decide)
  have h7 := (csd 7).toNat_lt
  have h7' : (csd 7).toNat * 2 ^ 2 < 2 ^ 16 := shifted_lt 2 16 h7 (by decide)
  have h8 : (csd 8).toNat / 2 ^ 6 < 2 ^ 2 := by
    have := (csd 8).toNat_lt
    omega
  have hbytes : csd.cSizeV1.toNat =
      (csd 6).toNat % 2 ^ 2 * 2 ^ 10 % 2 ^ 16 ||| (csd 7).toNat * 2 ^ 2 % 2 ^ 16 |||
        (csd 8).toNat / 2 ^ 6 := by
    simp [cSizeV1, Nat.shiftLeft_eq, Nat.shiftRight_eq_div_pow, Nat.and_two_pow_sub_one_eq_mod _ 2]
  rw [hbytes, Nat.mod_eq_of_lt h6, Nat.mod_eq_of_lt h7', or_or_eq_add 2 _ h7 h8, hfield]
  omega

private theorem cSizeMult_toNat : csd.cSizeMult.toNat = csd.field 49 47 := by
  have h10 := (csd 10).toNat_lt
  have hfield : csd.field 49 47 = ((csd 10).toNat + 256 * ((csd 9).toNat +
      256 * leNat ((List.ofFn csd).reverse.drop 7))) / 2 ^ 7 % 2 ^ 3 := csd.field_eq 5 7 3 rfl rfl
  have hbytes : csd.cSizeMult.toNat =
      (csd 9).toNat % 2 ^ 2 * 2 ^ 1 % 2 ^ 8 ||| (csd 10).toNat / 2 ^ 7 := by
    simp [cSizeMult, Nat.shiftLeft_eq, Nat.shiftRight_eq_div_pow,
      Nat.and_two_pow_sub_one_eq_mod _ 2]
  have hmod9 : (csd 9).toNat % 2 ^ 2 * 2 ^ 1 % 2 ^ 8 = (csd 9).toNat % 2 ^ 2 * 2 ^ 1 := by omega
  rw [hbytes, hmod9, or_eq_add 1 _ (by omega), hfield]
  omega

private theorem readBlLen_toNat : csd.readBlLen.toNat = csd.field 83 80 := by
  have hfield : csd.field 83 80 = ((csd 5).toNat +
      256 * leNat ((List.ofFn csd).reverse.drop 11)) / 2 ^ 0 % 2 ^ 4 := csd.field_eq 10 0 4 rfl rfl
  have hbytes : csd.readBlLen.toNat = (csd 5).toNat % 2 ^ 4 := by
    simp [readBlLen, Nat.and_two_pow_sub_one_eq_mod _ 4]
  rw [hbytes, hfield]
  omega

private theorem field_lt (hi lo : Nat) : csd.field hi lo < 2 ^ (hi - lo + 1) :=
  Nat.mod_lt _ (Nat.two_pow_pos _)

private theorem toNat_one_shiftLeft {x : UInt64} (h : x.toNat < 64) :
    ((1 : UInt64) <<< x).toNat = 2 ^ x.toNat := by
  have hpow : 2 ^ x.toNat < 2 ^ 64 := Nat.pow_lt_pow_right (by decide) h
  rw [UInt64.toNat_shiftLeft, Nat.mod_eq_of_lt h, UInt64.toNat_one, Nat.shiftLeft_eq, Nat.one_mul,
    Nat.mod_eq_of_lt hpow]

/-- The capacity of version 1.0 is the stated size modulo 2^32. -/
theorem capacityV1_toNat : csd.capacityV1.toNat = csd.bytesV1 % 2 ^ 32 := by
  have hsize : csd.field 73 62 < 2 ^ 12 := csd.field_lt 73 62
  have hmult : csd.field 49 47 < 2 ^ 3 := csd.field_lt 49 47
  have hlen : csd.field 83 80 < 2 ^ 4 := csd.field_lt 83 80
  have hone : (csd.cSizeV1.toUInt32 + 1).toUInt64.toNat = csd.field 73 62 + 1 := by
    rw [UInt32.toNat_toUInt64, UInt32.toNat_add, UInt16.toNat_toUInt32, cSizeV1_toNat,
      UInt32.toNat_one, Nat.mod_eq_of_lt (by omega)]
  have hshift : (csd.cSizeMult.toUInt64 + 2).toNat = csd.field 49 47 + 2 := by
    rw [UInt64.toNat_add, UInt8.toNat_toUInt64, cSizeMult_toNat]
    exact Nat.mod_eq_of_lt (show csd.field 49 47 + 2 < 2 ^ 64 by omega)
  have hshift' : csd.readBlLen.toUInt64.toNat = csd.field 83 80 := by
    rw [UInt8.toNat_toUInt64, readBlLen_toNat]
  have hmul : csd.bytesV1 < 2 ^ 64 := by
    have h1 : 2 ^ (csd.field 49 47 + 2) ≤ 2 ^ 9 := Nat.pow_le_pow_right (by decide) (by omega)
    have h2 : 2 ^ csd.field 83 80 ≤ 2 ^ 15 := Nat.pow_le_pow_right (by decide) (by omega)
    have h3 : (csd.field 73 62 + 1) * 2 ^ (csd.field 49 47 + 2) ≤ 2 ^ 12 * 2 ^ 9 :=
      Nat.mul_le_mul hsize h1
    exact Nat.lt_of_le_of_lt (Nat.mul_le_mul h3 h2) (by decide)
  have hmul' : (csd.field 73 62 + 1) * 2 ^ (csd.field 49 47 + 2) < 2 ^ 64 :=
    Nat.lt_of_le_of_lt (Nat.le_mul_of_pos_right _ (Nat.two_pow_pos _)) hmul
  rw [capacityV1, UInt64.toNat_toUInt32, UInt64.toNat_mul, UInt64.toNat_mul, hone,
    toNat_one_shiftLeft (by omega), toNat_one_shiftLeft (by omega), hshift, hshift',
    Nat.mod_eq_of_lt hmul', ← bytesV1, Nat.mod_eq_of_lt hmul]

/-- The largest size that a register of version 1.0 states is 2^32. -/
theorem bytesV1_cases (hlen : csd.field 83 80 ≤ 11) :
    (csd.field 73 62 = 0xFFF ∧ csd.field 49 47 = 7 ∧ csd.field 83 80 = 11) ∧
        csd.bytesV1 = 2 ^ 32 ∨
      ¬ (csd.field 73 62 = 0xFFF ∧ csd.field 49 47 = 7 ∧ csd.field 83 80 = 11) ∧
        csd.bytesV1 < 2 ^ 32 := by
  have hsize : csd.field 73 62 + 1 ≤ 2 ^ 12 := csd.field_lt 73 62
  have hmult : csd.field 49 47 < 2 ^ 3 := csd.field_lt 49 47
  have hbytes : csd.bytesV1 =
    (csd.field 73 62 + 1) * 2 ^ (csd.field 49 47 + 2 + csd.field 83 80) := by
    rw [bytesV1, Nat.mul_assoc, ← Nat.pow_add]
  by_cases hfull : csd.field 49 47 = 7 ∧ csd.field 83 80 = 11
  · rw [hfull.1, hfull.2] at hbytes
    omega
  · have hpow : 2 ^ (csd.field 49 47 + 2 + csd.field 83 80) ≤ 2 ^ 19 :=
      Nat.pow_le_pow_right (by decide) (by omega)
    have hle := Nat.mul_le_mul hsize hpow
    rw [← hbytes] at hle
    exact .inr ⟨fun h ↦ hfull h.2, Nat.lt_of_le_of_lt hle (by decide)⟩

/-- The product of version 2.0 is the stated one modulo 2^32. -/
theorem sectorsV2_toNat :
    ((csd.cSizeV2 + 1) * 1024).toNat = (csd.field 69 48 + 1) * 1024 % 2 ^ 32 := by
  have hsize : csd.field 69 48 < 2 ^ 22 := csd.field_lt 69 48
  rw [UInt32.toNat_mul, UInt32.toNat_add, cSizeV2_toNat, UInt32.toNat_one,
    Nat.mod_eq_of_lt (show csd.field 69 48 + 1 < 2 ^ 32 by omega)]
  rfl

/-- The register states 2^32 sectors, or 2^32 bytes. -/
def largest (csd : Csd) : Bool :=
  csd.field 127 126 = 1 && csd.field 69 48 = 0x3FFFFF ||
    csd.field 127 126 = 0 && csd.field 73 62 = 0xFFF && csd.field 49 47 = 7 && csd.field 83 80 = 11

end Csd

private theorem sdReadCsd_sent {card : Nat → UInt8} {csd : Csd} (h : sentCsd card = some csd)
    (s : Sdcard) : sdcardNsectors (sdReadCsd s card) = csd.nsectors.getD s.cardNsectors := by
  rw [sdReadCsd, h]
  rfl

/-- The sectors of a card are those that its register states, unless it states 2^32 sectors or
2^32 bytes: then the 32 bits of the result or of `capacity` are all 0. -/
theorem nsectors_exact (s : Sdcard) {card : Nat → UInt8} {csd : Csd}
    (hsent : sentCsd card = some csd)
    (hversion : csd.field 127 126 = 1 ∨
      csd.field 127 126 = 0 ∧ 9 ≤ csd.field 83 80 ∧ csd.field 83 80 ≤ 11) :
    ((sdcardNsectors (sdReadCsd s card)).toNat = csd.sectors ∧
      (csd.field 127 126 = 0 → csd.capacityV1.toNat = csd.bytesV1)) ↔ csd.largest = false := by
  have hver : ∀ v : UInt8, csd.version = v ↔ csd.field 127 126 = v.toNat := fun v ↦ by
    rw [← UInt8.toNat_inj, csd.version_toNat]
  rw [sdReadCsd_sent hsent, Csd.nsectors, Csd.sectors, Csd.largest]
  obtain hv2 | ⟨hv1, -, hlen⟩ := hversion
  · have hsize : csd.field 69 48 < 2 ^ 22 := csd.field_lt 69 48
    rw [if_pos ((hver 1).mpr hv2), if_pos hv2, Option.getD_some, csd.sectorsV2_toNat, hv2]
    simp only [decide_true, Bool.true_and, Nat.one_ne_zero, decide_false, Bool.false_and,
      Bool.or_false, decide_eq_false_iff_not, false_imp_iff, and_true]
    omega
  · have hne : ¬ csd.version = 1 := fun h ↦ by
      rw [(hver 1).mp h] at hv1
      cases hv1
    rw [if_neg hne, if_pos ((hver 0).mpr hv1), if_neg (by omega), Option.getD_some,
      UInt32.toNat_div, csd.capacityV1_toNat, hv1]
    simp only [Nat.zero_ne_one, decide_false, Bool.false_and, Bool.false_or, decide_true,
      Bool.true_and, forall_const, ← Bool.decide_and, decide_eq_false_iff_not]
    obtain ⟨hfull, hbytes⟩ | ⟨hfull, hbytes⟩ := csd.bytesV1_cases hlen
    · rw [hbytes, Nat.mod_self]
      refine iff_of_false ?_ fun h ↦ h ⟨⟨hfull.1, hfull.2.1⟩, hfull.2.2⟩
      rintro ⟨-, hzero⟩
      cases hzero
    · rw [Nat.mod_eq_of_lt hbytes]
      exact iff_of_true ⟨rfl, rfl⟩ fun h ↦ hfull ⟨h.1.1, h.1.2, h.2⟩

/-- A card that sends the response, the token, and a register of version 2.0 with `C_SIZE` 7. -/
def smallCard (pos : Nat) : UInt8 :=
  [0x00, 0xfe, 0x40, 0, 0, 0, 0, 0, 0, 0, 0, 7].getD pos 0

/-- Its register. -/
def smallCsd : Csd := fun i ↦ smallCard (2 + i)

/-- A card of the first version. -/
theorem nsectors_exact_small :
    ((sdcardNsectors (sdReadCsd ⟨fun _ ↦ 0, false, 0⟩ smallCard)).toNat = smallCsd.sectors ∧
      (smallCsd.field 127 126 = 0 → smallCsd.capacityV1.toNat = smallCsd.bytesV1)) ↔
      smallCsd.largest = false :=
  nsectors_exact ⟨fun _ ↦ 0, false, 0⟩ (show sentCsd smallCard = some smallCsd from rfl)
     (.inl (by decide))

/-- A card whose register states the largest number of sectors. -/
def largestCard (pos : Nat) : UInt8 :=
  [0x00, 0xfe, 0x40, 0, 0, 0, 0, 0, 0, 0x3f, 0xff, 0xff].getD pos 0

/-- Its register. -/
def largestCsd : Csd := fun i ↦ largestCard (2 + i)

/-- The register states 2^32 sectors, and the result is 0. -/
theorem largest_truncated : sentCsd largestCard = some largestCsd ∧
    largestCsd.field 127 126 = 1 ∧
    (sdcardNsectors (sdReadCsd ⟨fun _ ↦ 0, false, 0⟩ largestCard)).toNat ≠ largestCsd.sectors := by
  refine ⟨rfl, by decide, ?_⟩
  have hsectors : largestCsd.sectors = 2 ^ 32 := by decide
  have hzero : sdcardNsectors (sdReadCsd ⟨fun _ ↦ 0, false, 0⟩ largestCard) = 0 := rfl
  rw [hsectors, hzero]
  decide

end Xv6K210.Driver
