import Mathlib.Algebra.BigOperators.Group.Finset.Piecewise
import Mathlib.Algebra.BigOperators.Ring.Finset
import Mathlib.Algebra.Order.BigOperators.Group.Finset

/-!
# Reference counts

Library `Base`. Holders from a finite set each point to one object or to none. `refs h a` is the
number of holders that point to `a`. The counts are compared as integers, so that a count may be
ahead of the pointers or behind them while an operation is under way.
-/

namespace Xv6K210.Base

open Function

variable {ι α : Type} [DecidableEq α]

/-- 1 for the object that a pointer points to. -/
def holds (x : Option α) (a : α) : Int := if x = some a then 1 else 0

/-- The number of holders that point to an object. -/
def refs [Fintype ι] (h : ι → Option α) (a : α) : Nat :=
    (Finset.univ.filter fun i ↦ h i = some a).card

/-- Nothing is held by `none`. -/
@[simp] theorem holds_none (a : α) : holds (none : Option α) a = 0 := by simp [holds]

/-- What is pointed to is held once. -/
@[simp] theorem holds_self (a : α) : holds (some a) a = 1 := by simp [holds]

/-- Another thing is not held. -/
theorem holds_of_ne {a b : α} (h : a ≠ b) : holds (some a) b = 0 := by simp [holds, h]

/-- A pointer holds nothing a negative number of times. -/
theorem holds_nonneg (x : Option α) (a : α) : 0 ≤ holds x a := by
  unfold holds
  split_ifs <;> decide

variable [Fintype ι]

/-- The count is the sum over the pointers. -/
theorem refs_eq_sum (h : ι → Option α) (a : α) : (refs h a : Int) = ∑ i, holds (h i) a := by
  unfold refs holds
  rw [Finset.card_filter, Nat.cast_sum]
  apply Finset.sum_congr rfl
  intro i _
  rw [Nat.cast_ite, Nat.cast_one, Nat.cast_zero]

/-- One holder points elsewhere. -/
theorem refs_update [DecidableEq ι] (h : ι → Option α) (i : ι) (x : Option α) (a : α) :
    (refs (update h i x) a : Int) = refs h a - holds (h i) a + holds x a := by
  rw [refs_eq_sum, refs_eq_sum, ← Finset.add_sum_erase _ _ (Finset.mem_univ i),
    ← Finset.add_sum_erase Finset.univ (fun j ↦ holds (h j) a) (Finset.mem_univ i),
    update_self]
  have hrest : ∑ j ∈ Finset.univ.erase i, holds (update h i x j) a =
      ∑ j ∈ Finset.univ.erase i, holds (h j) a := by
    apply Finset.sum_congr rfl
    intro j hj
    rw [update_of_ne (Finset.ne_of_mem_erase hj)]
  rw [hrest]
  omega

/-- What is counted is pointed to. -/
theorem refs_pos {h : ι → Option α} {a : α} : 0 < refs h a ↔ ∃ i, h i = some a := by
  unfold refs
  rw [Finset.card_pos]
  constructor
  · rintro ⟨i, hi⟩
    exact ⟨i, (Finset.mem_filter.mp hi).2⟩
  · rintro ⟨i, hi⟩
    exact ⟨i, Finset.mem_filter.mpr ⟨Finset.mem_univ i, hi⟩⟩

/-- Without pointers nothing is counted. -/
theorem refs_none (a : α) : refs (fun _ : ι ↦ (none : Option α)) a = 0 := by simp [refs]

end Xv6K210.Base
