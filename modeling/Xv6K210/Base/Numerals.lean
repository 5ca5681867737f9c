import Mathlib.Algebra.Group.Nat.Defs
import Mathlib.Data.List.Basic
import Mathlib.Tactic.Common

/-!
# Numerals

Library `Base`. The digits of a number in a base, least significant first, as a loop of divisions
takes them, and the number that digits denote, read from the most significant one on.
-/

namespace Xv6K210.Base

variable {α : Type}

/-- The digits of `x`, least significant first, with room for as many digits as the first number
says. -/
def numeral (digit : Nat → α) (base : Nat) : Nat → Nat → List α
  | 0, _ => []
  | n + 1, x => digit (x % base) :: if x / base ≠ 0 then numeral digit base n (x / base) else []

/-- Digits are read behind a number, the most significant one first. -/
def readFrom (value : α → Option Nat) (base : Nat) : Nat → List α → Option Nat
  | acc, [] => some acc
  | acc, a :: as => (value a).bind fun d ↦ readFrom value base (acc * base + d) as

/-- The number that digits denote, if there are any. -/
def readNumeral (value : α → Option Nat) (base : Nat) (as : List α) : Option Nat :=
  if as.isEmpty then none else readFrom value base 0 as

variable {digit : Nat → α} {value : α → Option Nat} {base : Nat}

private theorem readFrom_append (acc : Nat) (as bs : List α) : readFrom value base acc (as ++ bs) =
    (readFrom value base acc as).bind fun x ↦ readFrom value base x bs := by
  induction as generalizing acc with
  | nil => rfl
  | cons a as ih =>
    rw [List.cons_append, readFrom, readFrom]
    cases value a with
    | none => rfl
    | some d => exact ih _

private theorem numeral_ne_nil (n x : Nat) : numeral digit base (n + 1) x ≠ [] := by
  rw [numeral]
  exact List.cons_ne_nil _ _

/-- As many digits as there is room for are enough for a number with so many places. -/
theorem readFrom_numeral (hbase : 2 ≤ base) (hvalue : ∀ d, d < base → value (digit d) = some d)
    {n x : Nat} (hx : x < base ^ n) (hpos : 0 < n) :
    readFrom value base 0 (numeral digit base n x).reverse = some x := by
  induction n generalizing x with
  | zero => cases hpos
  | succ n ih =>
    have hmod : x % base < base := Nat.mod_lt x (Nat.lt_of_lt_of_le (by decide) hbase)
    have hdiv : x / base < base ^ n :=
      Nat.div_lt_of_lt_mul (by rwa [Nat.pow_succ, Nat.mul_comm] at hx)
    rw [numeral]
    split
    next hmore =>
      have hn : 0 < n := by
        rcases Nat.eq_zero_or_pos n with rfl | hn
        · exact absurd (Nat.lt_one_iff.mp hdiv) hmore
        · exact hn
      have hsum : x / base * base + x % base = x := by
        rw [Nat.mul_comm]
        exact Nat.div_add_mod x base
      rw [List.reverse_cons, readFrom_append, ih hdiv hn, Option.bind_some, readFrom, hvalue _ hmod,
        Option.bind_some, hsum]
      rfl
    next hlast =>
      have hlt : x < base := Nat.lt_of_div_eq_zero (Nat.lt_of_lt_of_le (by decide) hbase)
        (not_not.mp hlast)
      rw [Nat.mod_eq_of_lt hlt, List.reverse_singleton, readFrom, hvalue _ hlt, Option.bind_some,
        Nat.zero_mul, Nat.zero_add]
      rfl

/-- Reading the digits back gives the number. -/
theorem read_numeral (hbase : 2 ≤ base) (hvalue : ∀ d, d < base → value (digit d) = some d)
    {n x : Nat} (hx : x < base ^ n) (hpos : 0 < n) :
    readNumeral value base (numeral digit base n x).reverse = some x := by
  obtain ⟨m, rfl⟩ := Nat.exists_eq_succ_of_ne_zero (Nat.ne_of_gt hpos)
  have hne : (numeral digit base (m + 1) x).reverse.isEmpty = false := by
    rw [List.isEmpty_reverse, List.isEmpty_eq_false_iff]
    exact numeral_ne_nil m x
  rw [readNumeral, hne, if_neg Bool.false_ne_true, readFrom_numeral hbase hvalue hx hpos]

end Xv6K210.Base
