import Mathlib.Algebra.Group.Nat.Defs
import Mathlib.Logic.Function.Iterate
import Mathlib.Tactic.Common

/-!
# Reflected cyclic redundancy codes

Library `Base`. The register of a reflected code takes the message bit by bit, each byte
from its least significant bit. The shift is linear over exclusive or, so the eight bits of
a byte may enter at once, and what they do to the low byte of the register may be tabulated.
-/

namespace Xv6K210.Base.Crc

variable {w : Nat} (poly : BitVec w)

/-- One message bit enters at the low end of the register. -/
def shiftBit (r : BitVec w) (b : Bool) : BitVec w :=
  if r.getLsbD 0 ^^ b then (r >>> 1) ^^^ poly else r >>> 1

/-- The bits of a byte, least significant first. -/
def byteBits (b : UInt8) : List Bool := (List.range 8).map b.toBitVec.getLsbD

/-- The register after some message bits. -/
def feed (r : BitVec w) (bits : List Bool) : BitVec w := bits.foldl (shiftBit poly) r

/-- The checksum of a message: the register starts with all ones and is inverted at the
end. -/
def checksum (msg : List UInt8) : BitVec w :=
  ~~~ feed poly (BitVec.allOnes w) (msg.flatMap byteBits)

/-- The shift without a message bit. -/
def drop (r : BitVec w) : BitVec w := shiftBit poly r false

/-- The bits of a list as the low bits of a word. -/
def ofBits (bits : List Bool) : BitVec w := (BitVec.ofBoolListLE bits).setWidth w

private theorem getLsbD_ofBits (bits : List Bool) (h : bits.length ≤ w) (i : Nat) :
    (ofBits bits : BitVec w).getLsbD i = bits.getD i false := by
  rw [ofBits, BitVec.getLsbD_setWidth, BitVec.getLsbD_ofBoolListLE]
  by_cases hi : i < w
  · simp [hi]
  · have hlen : bits.length ≤ i := by omega
    simp [hi, List.getElem?_eq_none hlen]

/-- The shift is linear over exclusive or. -/
theorem drop_xor (x y : BitVec w) : drop poly (x ^^^ y) = drop poly x ^^^ drop poly y := by
  unfold drop shiftBit
  rw [BitVec.getLsbD_xor, BitVec.ushiftRight_xor_distrib]
  cases x.getLsbD 0 <;> cases y.getLsbD 0
  · rfl
  · exact BitVec.xor_assoc _ _ _
  · simp only [Bool.xor_false, ↓reduceIte, Bool.false_eq_true]
    ac_rfl
  · have h : ∀ a b : BitVec w, a ^^^ b = (a ^^^ poly) ^^^ (b ^^^ poly) := fun a b ↦ by
      rw [BitVec.xor_comm b poly, BitVec.xor_assoc, ← BitVec.xor_assoc poly, BitVec.xor_self,
        BitVec.zero_xor]
    exact h _ _

/-- Several shifts are linear over exclusive or. -/
theorem iterate_drop_xor (k : Nat) (x y : BitVec w) :
    (drop poly)^[k] (x ^^^ y) = (drop poly)^[k] x ^^^ (drop poly)^[k] y := by
  induction k generalizing x y with
  | zero => rfl
  | succ k ih => rw [Function.iterate_succ_apply, drop_xor, ih]; rfl

/-- While only zeros leave the register, the shifts only move it down. -/
theorem iterate_drop_of_low (k : Nat) (x : BitVec w) (h : ∀ i < k, x.getLsbD i = false) :
    (drop poly)^[k] x = x >>> k := by
  induction k generalizing x with
  | zero => rfl
  | succ k ih =>
    have h0 : drop poly x = x >>> 1 := by simp [drop, shiftBit, h 0 (by omega)]
    have hlow : ∀ i < k, (x >>> 1).getLsbD i = false := fun i hi ↦ by
      rw [BitVec.getLsbD_ushiftRight]
      exact h _ (by omega)
    rw [Function.iterate_succ_apply, h0, ih _ hlow, ← BitVec.shiftRight_add, Nat.add_comm]

/-- The bits of a message may be added to the register before the shifts. -/
theorem feed_eq_iterate (bits : List Bool) (r : BitVec w) (h : bits.length ≤ w) :
    feed poly r bits = (drop poly)^[bits.length] (r ^^^ ofBits bits) := by
  induction bits generalizing r with
  | nil =>
    have hz : (ofBits [] : BitVec w) = 0 := by
      ext i hi
      rw [← BitVec.getLsbD_eq_getElem, getLsbD_ofBits _ (Nat.zero_le _)]
      simp
    simp [feed, hz]
  | cons b bits ih =>
    have hlen : bits.length + 1 ≤ w := h
    have h0 : (r ^^^ ofBits (b :: bits)).getLsbD 0 = (r.getLsbD 0 ^^ b) := by
      rw [BitVec.getLsbD_xor, getLsbD_ofBits _ h]
      rfl
    have h1 : (ofBits (b :: bits) : BitVec w) >>> 1 = ofBits bits := by
      ext i hi
      rw [← BitVec.getLsbD_eq_getElem, ← BitVec.getLsbD_eq_getElem,
        BitVec.getLsbD_ushiftRight, getLsbD_ofBits _ h, getLsbD_ofBits _ (by omega),
        Nat.add_comm 1 i]
      rfl
    have hstep : shiftBit poly r b ^^^ ofBits bits = drop poly (r ^^^ ofBits (b :: bits)) := by
      unfold drop shiftBit
      rw [h0, Bool.xor_false, BitVec.ushiftRight_xor_distrib, h1]
      cases r.getLsbD 0 ^^ b
      · rfl
      · simp only [↓reduceIte]
        ac_rfl
    calc feed poly r (b :: bits) = feed poly (shiftBit poly r b) bits := rfl
      _ = (drop poly)^[bits.length] (shiftBit poly r b ^^^ ofBits bits) := ih _ (by omega)
      _ = (drop poly)^[bits.length] (drop poly (r ^^^ ofBits (b :: bits))) := by rw [hstep]

/-- The bits of a byte are the low bits of the word that extends it. -/
theorem ofBits_byteBits (b : UInt8) :
    (ofBits (byteBits b) : BitVec w) = b.toBitVec.setWidth w := by
  ext i hi
  simp only [ofBits, BitVec.getElem_setWidth, BitVec.getLsbD_ofBoolListLE, byteBits]
  by_cases h8 : i < 8
  · simp [h8]
  · have hge : b.toBitVec.getLsbD i = false := BitVec.getLsbD_of_ge _ _ (by omega)
    simp [h8, hge]

/-- A byte has eight bits. -/
@[simp] theorem length_byteBits (b : UInt8) : (byteBits b).length = 8 := by simp [byteBits]

/-- A whole byte enters through a table of the low byte: the table holds what eight shifts
make of it, and the rest of the register moves down. -/
theorem feed_byte (h : 8 ≤ w) (r : BitVec w) (b : UInt8) :
    feed poly r (byteBits b) =
      (drop poly)^[8] ((r ^^^ b.toBitVec.setWidth w) &&& 0xFF#w) ^^^ (r >>> 8) := by
  have hmask : ∀ i, (0xFF#w).getLsbD i = decide (i < 8) := fun i ↦ by
    rw [BitVec.getLsbD_ofNat, show 255 = 2 ^ 8 - 1 from rfl, Nat.testBit_two_pow_sub_one]
    by_cases hi : i < 8
    · simp [hi, show i < w by omega]
    · simp [hi]
  set x := r ^^^ b.toBitVec.setWidth w
  have hsplit : x = (x &&& 0xFF#w) ^^^ (x &&& ~~~ 0xFF#w) := by
    ext i hi
    simp only [BitVec.getElem_xor, BitVec.getElem_and, BitVec.getElem_not]
    cases x[i] <;> cases (0xFF#w)[i] <;> rfl
  have hlow : ∀ i < 8, (x &&& ~~~ 0xFF#w).getLsbD i = false := fun i hi ↦ by
    simp [hmask, hi]
  have hhigh : (x &&& ~~~ 0xFF#w) >>> 8 = r >>> 8 := by
    ext i hi
    have hb : b.toBitVec.getLsbD (8 + i) = false := BitVec.getLsbD_of_ge _ _ (by omega)
    simp only [BitVec.getElem_ushiftRight, BitVec.getLsbD_and, BitVec.getLsbD_not, hmask, x,
      BitVec.getLsbD_xor, BitVec.getLsbD_setWidth, hb]
    by_cases hw : 8 + i < w
    · simp [hw]
    · simp [hw, BitVec.getLsbD_of_ge r (8 + i) (by omega)]
  rw [feed_eq_iterate _ _ _ (by rw [length_byteBits]; exact h), length_byteBits,
    ofBits_byteBits, ← hhigh, ← iterate_drop_of_low poly 8 _ hlow, ← iterate_drop_xor,
    ← hsplit]

/-- Bits are fed one list after the other. -/
theorem feed_append (r : BitVec w) (as bs : List Bool) :
    feed poly r (as ++ bs) = feed poly (feed poly r as) bs := List.foldl_append

end Xv6K210.Base.Crc
