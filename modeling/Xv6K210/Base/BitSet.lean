import Mathlib.Tactic.Common

/-!
# Sets of small numbers as the bits of a word

Library `Base`. A word of width `w` stands for the set of the positions at which it has a one.
C code tests, adds and removes an element with the word that has only that bit.
-/

namespace Xv6K210.Base

variable {w : Nat}

/-- The word `1 << i`. -/
def bit (w i : Nat) : BitVec w := 1#w <<< i

/-- The test `s & (1 << i)`. -/
def hasBit (s : BitVec w) (i : Nat) : Bool := s &&& bit w i != 0

/-- The only one of `1 << i` is at position `i`. -/
theorem getLsbD_bit (w i j : Nat) : (bit w i).getLsbD j = (decide (j < w) && decide (i = j)) := by
  rw [bit, BitVec.getLsbD_shiftLeft, BitVec.getLsbD_one]
  by_cases hij : i = j
  · subst hij
    simp
    omega
  · by_cases hlt : j < i
    · simp [hlt, hij]
    · have hsub : j - i ≠ 0 := by omega
      simp [hij, hsub]

/-- The test reads the bit at position `i`. -/
theorem hasBit_eq {s : BitVec w} {i : Nat} (h : i < w) : hasBit s i = s.getLsbD i := by
  have hone : ∀ j,
    (s &&& bit w i).getLsbD j = (s.getLsbD i && decide (j < w) && decide (i = j)) := by
    intro j
    rw [BitVec.getLsbD_and, getLsbD_bit]
    by_cases hij : i = j
    · subst hij
      simp [h]
    · simp [hij]
  cases hs : s.getLsbD i with
  | false =>
    have hzero : s &&& bit w i = 0 := by
      apply BitVec.eq_of_getLsbD_eq
      intro j _
      rw [hone, hs]
      simp
    simp [hasBit, hzero]
  | true =>
    have hne : s &&& bit w i ≠ 0 := by
      intro hzero
      have hbit := hone i
      rw [hzero, hs] at hbit
      simp [h] at hbit
    simpa [hasBit] using hne

/-- The empty word has no bit. -/
@[simp] theorem hasBit_zero (i : Nat) : hasBit (0 : BitVec w) i = false := by
  simp [hasBit]

/-- After `s |= 1 << m` the set has the element `m` as well. -/
theorem hasBit_or {s : BitVec w} {m i : Nat} (h : i < w) :
    hasBit (s ||| bit w m) i = (hasBit s i || decide (m = i)) := by
  rw [hasBit_eq h, hasBit_eq h, BitVec.getLsbD_or, getLsbD_bit]
  simp [h]

/-- After `s &= ~(1 << m)` the set has lost the element `m`. -/
theorem hasBit_andNot {s : BitVec w} {m i : Nat} (h : i < w) :
    hasBit (s &&& ~~~bit w m) i = (hasBit s i && !decide (m = i)) := by
  rw [hasBit_eq h, hasBit_eq h, BitVec.getLsbD_and, BitVec.getLsbD_not, getLsbD_bit]
  simp [h]

/-- The elements of `s & ~t`. -/
theorem hasBit_diff {s t : BitVec w} {i : Nat} (h : i < w) :
    hasBit (s &&& ~~~t) i = (hasBit s i && !hasBit t i) := by
  rw [hasBit_eq h, hasBit_eq h, hasBit_eq h, BitVec.getLsbD_and, BitVec.getLsbD_not]
  simp [h]

/-- Removing what was just added restores the set, if it was not there before. -/
theorem or_andNot {s : BitVec w} {m : Nat} (h : m < w) (hs : hasBit s m = false) :
    (s ||| bit w m) &&& ~~~bit w m = s := by
  apply BitVec.eq_of_getLsbD_eq
  intro j hj
  rw [hasBit_eq h] at hs
  rw [BitVec.getLsbD_and, BitVec.getLsbD_or, BitVec.getLsbD_not, getLsbD_bit]
  by_cases hmj : m = j
  · subst hmj
    rw [hs]
    simp
  · simp [hmj, hj]

end Xv6K210.Base
