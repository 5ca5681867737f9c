import Mathlib.Tactic.Common

/-!
# How far a request gets

A transfer of `n` items that stops at the first one refused moves the items of
an initial run. Its length depends only on which positions are accepted, and a transfer made in
pieces gets as far as one made at once.
-/

namespace Xv6K210.Base

/-- The number of positions from `k` on that satisfy `p` without a break, at most `n`. -/
def goodRun (p : Nat → Bool) : Nat → Nat → Nat
  | _, 0 => 0
  | k, n + 1 => if p k then goodRun p (k + 1) n + 1 else 0

variable (p q : Nat → Bool)

/-- The run is not longer than the request. -/
theorem goodRun_le : ∀ k n : Nat, goodRun p k n ≤ n
  | _, 0 => Nat.le_refl 0
  | k, n + 1 => by
    have ih := goodRun_le (k + 1) n
    simp only [goodRun]
    split <;> omega

/-- Every position of the run satisfies the predicate. -/
theorem goodRun_good : ∀ k n j : Nat, k ≤ j → j < k + goodRun p k n → p j = true
  | k, 0, j, hk, hj => by
    simp only [goodRun] at hj
    omega
  | k, n + 1, j, hk, hj => by
    simp only [goodRun] at hj
    split at hj
    · next hp =>
      by_cases hjk : j = k
      · rwa [hjk]
      · exact goodRun_good (k + 1) n j (by omega) (by omega)
    · omega

/-- The position behind a run that falls short does not satisfy the predicate. -/
theorem goodRun_bad : ∀ k n : Nat, goodRun p k n < n → p (k + goodRun p k n) = false
  | k, 0, h => absurd h (Nat.not_lt_zero _)
  | k, n + 1, h => by
    simp only [goodRun] at h ⊢
    split at h
    · next hp =>
      have ih := goodRun_bad (k + 1) n (by omega)
      rw [if_pos hp, show k + (goodRun p (k + 1) n + 1) = k + 1 + goodRun p (k + 1) n by omega]
      exact ih
    · next hp =>
      rw [if_neg hp, Nat.add_zero]
      simpa using hp

/-- Two pieces: the second one counts when the first is complete. -/
theorem goodRun_add (k m n : Nat) :
    goodRun p k (m + n) =
      if goodRun p k m = m then m + goodRun p (k + m) n else goodRun p k m := by
  induction m generalizing k with
  | zero => simp [goodRun]
  | succ m ih =>
    rw [show m + 1 + n = (m + n) + 1 by omega]
    simp only [goodRun]
    by_cases hp : p k = true
    · simp only [hp, if_true, ih, Nat.add_right_cancel_iff]
      rw [show k + 1 + m = k + (m + 1) by omega]
      split <;> omega
    · simp [hp]

end Xv6K210.Base
