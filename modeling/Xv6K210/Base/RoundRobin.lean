import Mathlib.Tactic.Common

/-!
# Round robin over a table

Library `Base`. A table of `n` slots is searched cyclically from a cursor, which then moves behind
the slot that was found. A slot that is ready whenever the table is searched is not passed over
twice in favour of the same other slot.
-/

namespace Xv6K210.Base

/-- The first ready slot from the cursor on, cyclically. -/
def scan (n : Nat) (ready : Nat → Bool) (cursor : Nat) : Option Nat :=
  ((List.range n).map fun i ↦ (cursor + i) % n).find? ready

/-- How far behind the cursor a slot is. -/
def ahead (n cursor x : Nat) : Nat := (x + (n - cursor % n)) % n

variable {n : Nat}

/-- A slot is found at its distance from the cursor. -/
theorem ahead_add (cursor : Nat) {i : Nat} (h : i < n) : ahead n cursor ((cursor + i) % n) = i := by
  have hn : cursor % n < n := Nat.mod_lt _ (by omega)
  rw [ahead, Nat.add_mod, Nat.mod_mod, ← Nat.add_mod]
  have hsplit : cursor + i + (n - cursor % n) = i + n * (cursor / n + 1) := by
    have hdiv := Nat.div_add_mod cursor n
    rw [Nat.mul_add, Nat.mul_one]
    omega
  rw [hsplit, Nat.add_mul_mod_self_left, Nat.mod_eq_of_lt h]

/-- A slot is as far from the cursor as its distance says. -/
theorem add_ahead (cursor : Nat) {x : Nat} (h : x < n) : (cursor + ahead n cursor x) % n = x := by
  have hn : cursor % n < n := Nat.mod_lt _ (by omega)
  rw [ahead, Nat.add_mod, Nat.mod_mod, ← Nat.add_mod]
  have hsplit : cursor + (x + (n - cursor % n)) = x + n * (cursor / n + 1) := by
    have hdiv := Nat.div_add_mod cursor n
    rw [Nat.mul_add, Nat.mul_one]
    omega
  rw [hsplit, Nat.add_mul_mod_self_left, Nat.mod_eq_of_lt h]

/-- No slot is a whole round ahead. -/
theorem ahead_lt (cursor : Nat) {x : Nat} (h : x < n) : ahead n cursor x < n :=
    Nat.mod_lt _ (by omega)

/-- Different slots are at different distances. -/
theorem ahead_inj {cursor x y : Nat} (hx : x < n) (hy : y < n)
    (h : ahead n cursor x = ahead n cursor y) : x = y := by
  rw [← add_ahead cursor hx, ← add_ahead cursor hy, h]

/-- The slot that is found is ready, and no other ready slot is nearer to the cursor. -/
theorem scan_eq_some {ready : Nat → Bool} {cursor x : Nat} (h : scan n ready cursor = some x) :
    x < n ∧ ready x ∧ ∀ y, y < n → ready y → ahead n cursor x ≤ ahead n cursor y := by
  rw [scan, List.find?_map, Option.map_eq_some_iff] at h
  obtain ⟨i, hi, rfl⟩ := h
  have hmem := List.mem_of_find?_eq_some hi
  rw [List.mem_range] at hmem
  have hready : ready ((cursor + i) % n) := by
    have hfound := List.find?_some hi
    exact hfound
  refine ⟨Nat.mod_lt _ (by omega), hready, fun y hy hother ↦ ?_⟩
  rw [ahead_add cursor hmem]
  by_contra hlt
  -- the search would have stopped at `y`
  obtain ⟨-, j, hj, hget, hbefore⟩ := List.find?_eq_some_iff_getElem.mp hi
  rw [List.getElem_range] at hget
  subst hget
  have hno := hbefore (ahead n cursor y) (by omega)
  rw [List.getElem_range, Function.comp_apply, add_ahead cursor hy, hother] at hno
  cases hno

/-- Nothing is found only when no slot is ready. -/
theorem scan_eq_none {ready : Nat → Bool} {cursor : Nat} (h : scan n ready cursor = none) :
    ∀ y, y < n → ready y = false := by
  intro y hy
  rw [scan, List.find?_eq_none] at h
  rw [← Bool.not_eq_true]
  apply h
  rw [List.mem_map]
  exact ⟨ahead n cursor y, List.mem_range.mpr (ahead_lt cursor hy), add_ahead cursor hy⟩

/-- When the cursor moves behind a slot, this slot becomes the last one. -/
theorem ahead_behind {x : Nat} (h : x < n) : ahead n ((x + 1) % n) x = n - 1 := by
  have hlast : (((x + 1) % n) + (n - 1)) % n = x := by
    rw [Nat.add_mod, Nat.mod_mod, ← Nat.add_mod]
    have hsum : x + 1 + (n - 1) = x + n := by omega
    rw [hsum, Nat.add_mod_right, Nat.mod_eq_of_lt h]
  have hcalc := ahead_add ((x + 1) % n) (show n - 1 < n by omega)
  rwa [hlast] at hcalc

/-- When the cursor moves behind a slot, the slots behind it come nearer. -/
theorem ahead_move {cursor r x : Nat} (hr : r < n) (hx : x < n)
    (h : ahead n cursor r < ahead n cursor x) :
    ahead n ((r + 1) % n) x = ahead n cursor x - ahead n cursor r - 1 := by
  have hlt := ahead_lt cursor hx
  generalize hd : ahead n cursor x - ahead n cursor r - 1 = d
  have hpos : ((r + 1) % n + d) % n = x := by
    calc ((r + 1) % n + d) % n = (r + (1 + d)) % n := by
          rw [Nat.add_mod, Nat.mod_mod, ← Nat.add_mod, Nat.add_assoc]
      _ = ((cursor + ahead n cursor r) % n + (1 + d)) % n := by rw [add_ahead cursor hr]
      _ = (cursor + ahead n cursor r + (1 + d)) % n := by
          rw [Nat.add_mod, Nat.mod_mod, ← Nat.add_mod]
      _ = (cursor + ahead n cursor x) % n := by
          congr 1
          omega
      _ = x := add_ahead cursor hx
  have hcalc := ahead_add ((r + 1) % n) (show d < n by omega)
  rwa [hpos] at hcalc

/-- Slot `q` is nearer to the cursor than slot `p`. -/
def Nearer (n cursor q p : Nat) : Prop := ahead n cursor q < ahead n cursor p

/-- Every other slot is nearer than the one that was found last. -/
theorem nearer_of_found {q p : Nat} (hq : q < n) (hp : p < n) (hne : q ≠ p) :
    Nearer n ((p + 1) % n) q p := by
  have hlt := ahead_lt ((p + 1) % n) hq
  have hdiff : ahead n ((p + 1) % n) q ≠ ahead n ((p + 1) % n) p :=
    fun h ↦ hne (ahead_inj hq hp h)
  rw [Nearer]
  rw [ahead_behind hp] at hdiff ⊢
  omega

/-- A search that passes over a ready slot `q` that is nearer than `p` does not find `p`, and `q`
remains nearer. -/
theorem Nearer.scan {ready : Nat → Bool} {cursor q p r : Nat} (h : Nearer n cursor q p)
    (hq : q < n) (hp : p < n) (hready : ready q) (hscan : scan n ready cursor = some r)
    (hne : r ≠ q) : r ≠ p ∧ Nearer n ((r + 1) % n) q p := by
  obtain ⟨hr, -, hfirst⟩ := scan_eq_some hscan
  have hle := hfirst q hq hready
  have hlt : ahead n cursor r < ahead n cursor q := by
    have hdiff : ahead n cursor r ≠ ahead n cursor q := fun heq ↦ hne (ahead_inj hr hq heq)
    omega
  rw [Nearer] at h
  constructor
  · rintro rfl
    omega
  · rw [Nearer, ahead_move hr hq hlt, ahead_move hr hp (Nat.lt_trans hlt h)]
    omega

end Xv6K210.Base
