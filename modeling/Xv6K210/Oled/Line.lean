import Mathlib.Algebra.Order.Field.Basic
import Mathlib.Algebra.Order.Field.Rat
import Mathlib.Algebra.Order.Ring.Abs
import Mathlib.Data.List.Chain
import Mathlib.Data.List.Count
import Mathlib.Data.List.Nodup
import Mathlib.Tactic.FieldSimp
import Mathlib.Tactic.Linarith
import Mathlib.Tactic.Ring
import Xv6K210.Oled.Framebuffer

/-!
# Lines on the display

Source `user/libc/oled.c:212–270`. A line that is neither horizontal nor vertical is
folded into the first octant, followed there with the decision variable `d`, and unfolded point by
point. Coordinates are small enough that no sum of them overflows.
-/

namespace Xv6K210.Oled

/-! ### The points -/

/-- The end points of a line. -/
structure Ends where
  x0 : Int
  y0 : Int
  x1 : Int
  y1 : Int

namespace Ends

/-- Start from the smaller x. -/
def fromLeft (e : Ends) : Ends := if e.x0 > e.x1 then ⟨e.x1, e.y1, e.x0, e.y0⟩ else e

/-- `yflag`: the slope is negative. -/
def yflag (e : Ends) : Bool := e.y0 > e.y1

/-- Reflect the negative slope to the first octant. -/
def reflect (e : Ends) : Ends := if e.yflag then ⟨e.x0, -e.y0, e.x1, -e.y1⟩ else e

/-- `xyflag`: the slope is more than 1. -/
def xyflag (e : Ends) : Bool := e.y1 - e.y0 > e.x1 - e.x0

/-- Swap the axes. -/
def swapAxes (e : Ends) : Ends := if e.xyflag then ⟨e.y0, e.x0, e.y1, e.x1⟩ else e

end Ends

/-- The point that is drawn for a point of the first octant. -/
def drawn (yflag xyflag : Bool) (p : Int × Int) : Int × Int :=
  if yflag && xyflag then (p.2, -p.1)
  else if yflag then (p.1, -p.2)
  else if xyflag then (p.2, p.1)
  else p

/-- The turns of `while (x < x1)` that are left, with the points of the first octant. -/
def octantLoop (dx dy : Int) : Nat → Int → Int → Int → List (Int × Int)
  | 0, _, _, _ => []
  | n + 1, x, y, d =>
    if d < 0 then (x + 1, y) :: octantLoop dx dy n (x + 1) y (d + 2 * dy)
    else (x + 1, y + 1) :: octantLoop dx dy n (x + 1) (y + 1) (d + 2 * (dy - dx))

/-- The points of a line in the first octant. -/
def octant (e : Ends) : List (Int × Int) :=
  let dx := e.x1 - e.x0
  let dy := e.y1 - e.y0
  (e.x0, e.y0) :: octantLoop dx dy (e.x1 - e.x0).toNat e.x0 e.y0 (2 * dy - dx)

/-- The values of a variable that counts from `lo` to `hi`, with `hi`. -/
def counted (lo hi : Int) : List Int :=
    (List.range (hi + 1 - lo).toNat).map fun i : Nat ↦ lo + (i : Int)

/-- The points that `OLED_DrawLine` passes to `OLED_DrawPoint`. -/
def linePoints (X0 Y0 X1 Y1 : Int) : List (Int × Int) :=
  if Y0 = Y1 then
    (if X0 > X1 then counted X1 X0 else counted X0 X1).map fun x ↦ (x, Y0)
  else if X0 = X1 then
    (if Y0 > Y1 then counted Y1 Y0 else counted Y0 Y1).map fun y ↦ (X0, y)
  else
    let e := (Ends.mk X0 Y0 X1 Y1).fromLeft
    (octant e.reflect.swapAxes).map (drawn e.yflag e.reflect.xyflag)

/-- `OLED_DrawLine`. -/
def oledDrawLine (fb : Option Fb) (X0 Y0 X1 Y1 : Int) : Except Int (Option Fb) :=
  (linePoints X0 Y0 X1 Y1).foldlM (fun fb p ↦ oledDrawPoint fb p.1 p.2) fb

/-! ### Correct lines -/

/-- The row of the ideal line in column `x`. -/
def ideal (X0 Y0 X1 Y1 x : Int) : ℚ := Y0 + ((x : ℚ) - X0) * ((Y1 : ℚ) - Y0) / ((X1 : ℚ) - X0)

/-- One point for each column, within half a row of the ideal line. -/
structure Along (X0 Y0 X1 Y1 : Int) (pts : List (Int × Int)) : Prop where
  count : ∀ x, (pts.map Prod.fst).count x = if min X0 X1 ≤ x ∧ x ≤ max X0 X1 then 1 else 0
  near : ∀ p ∈ pts, |(p.2 : ℚ) - ideal X0 Y0 X1 Y1 p.1| ≤ 1 / 2

/-- Points that follow each other on the screen. -/
def Adjacent (p q : Int × Int) : Prop := |q.1 - p.1| ≤ 1 ∧ |q.2 - p.2| ≤ 1

/-- A correct line between two points, seen along its longer axis. -/
structure IsLine (X0 Y0 X1 Y1 : Int) (pts : List (Int × Int)) : Prop where
  first : (X0, Y0) ∈ pts
  last : (X1, Y1) ∈ pts
  adjacent : pts.IsChain Adjacent
  alongX : |Y1 - Y0| ≤ |X1 - X0| → Along X0 Y0 X1 Y1 pts
  alongY : |X1 - X0| ≤ |Y1 - Y0| → Along Y0 X0 Y1 X1 (pts.map Prod.swap)

/-! ### Symmetries -/

variable {X0 Y0 X1 Y1 : Int} {pts : List (Int × Int)}

private theorem ideal_ends (hX : X0 ≠ X1) (x : Int) :
    ideal X1 Y1 X0 Y0 x = ideal X0 Y0 X1 Y1 x := by
  have h : (X1 : ℚ) - X0 ≠ 0 := sub_ne_zero.mpr fun h ↦ hX (Int.cast_injective h).symm
  have h' : (X0 : ℚ) - X1 ≠ 0 := sub_ne_zero.mpr fun h ↦ hX (Int.cast_injective h)
  unfold ideal
  field_simp
  ring

/-- A line along the longer axis from the other end. -/
theorem Along.ends (h : Along X0 Y0 X1 Y1 pts) (hle : |Y1 - Y0| ≤ |X1 - X0|) :
    Along X1 Y1 X0 Y0 pts := by
  refine ⟨fun x ↦ ?_, fun p hp ↦ ?_⟩
  · rw [min_comm, max_comm]
    exact h.count x
  · by_cases hX : X0 = X1
    · subst hX
      rw [sub_self, abs_zero, abs_nonpos_iff, sub_eq_zero] at hle
      subst hle
      exact h.near p hp
    · rw [ideal_ends hX]
      exact h.near p hp

/-- A line from the other end. -/
theorem IsLine.ends (h : IsLine X0 Y0 X1 Y1 pts) : IsLine X1 Y1 X0 Y0 pts := by
  refine ⟨h.last, h.first, h.adjacent, fun hle ↦ ?_, fun hle ↦ ?_⟩
  · rw [abs_sub_comm Y0, abs_sub_comm X0] at hle
    exact (h.alongX hle).ends hle
  · rw [abs_sub_comm Y0, abs_sub_comm X0] at hle
    exact (h.alongY hle).ends hle

private theorem IsLine.swapAxes (h : IsLine X0 Y0 X1 Y1 pts) :
    IsLine Y0 X0 Y1 X1 (pts.map Prod.swap) := by
  have hswap : (pts.map Prod.swap).map Prod.swap = pts := by
    rw [List.map_map, Prod.swap_swap_eq, List.map_id]
  refine ⟨List.mem_map.mpr ⟨_, h.first, rfl⟩, List.mem_map.mpr ⟨_, h.last, rfl⟩, ?_, h.alongY, ?_⟩
  · rw [List.isChain_map]
    exact h.adjacent.imp fun _ _ hpq ↦ hpq.symm
  · rw [hswap]
    exact h.alongX

private theorem ideal_neg (x : Int) : ideal X0 (-Y0) X1 (-Y1) x = -ideal X0 Y0 X1 Y1 x := by
  unfold ideal
  push_cast
  ring

private theorem ideal_neg_neg (x : Int) : ideal (-X0) Y0 (-X1) Y1 (-x) = ideal X0 Y0 X1 Y1 x := by
  unfold ideal
  push_cast
  rw [neg_sub_neg, neg_sub_neg, ← neg_sub (x : ℚ), ← neg_sub (X1 : ℚ), neg_mul, neg_div_neg_eq]

/-- The point on the other side of the x axis. -/
def flip (p : Int × Int) : Int × Int := (p.1, -p.2)

private theorem IsLine.flip (h : IsLine X0 Y0 X1 Y1 pts) :
    IsLine X0 (-Y0) X1 (-Y1) (pts.map flip) := by
  have hdist : |-Y1 - -Y0| = |Y1 - Y0| := by rw [neg_sub_neg, abs_sub_comm]
  refine ⟨List.mem_map.mpr ⟨_, h.first, rfl⟩, List.mem_map.mpr ⟨_, h.last, rfl⟩, ?_, ?_, ?_⟩
  · rw [List.isChain_map]
    refine h.adjacent.imp fun p q hpq ↦ ⟨hpq.1, ?_⟩
    change |-q.2 - -p.2| ≤ 1
    rw [neg_sub_neg, abs_sub_comm]
    exact hpq.2
  · intro hle
    have halong := h.alongX (hdist ▸ hle)
    refine ⟨fun x ↦ ?_, fun p hp ↦ ?_⟩
    · rw [List.map_map]
      exact halong.count x
    · obtain ⟨q, hq, rfl⟩ := List.mem_map.mp hp
      have hnear := halong.near q hq
      rw [abs_sub_comm, ← neg_sub_neg] at hnear
      change |((-q.2 : Int) : ℚ) - ideal X0 (-Y0) X1 (-Y1) q.1| ≤ 1 / 2
      rw [ideal_neg, Int.cast_neg, neg_sub_neg, abs_sub_comm]
      exact halong.near q hq
  · intro hle
    have halong := h.alongY (hdist ▸ hle)
    refine ⟨fun y ↦ ?_, fun p hp ↦ ?_⟩
    · have hmap : ((pts.map Oled.flip).map Prod.swap).map Prod.fst =
          ((pts.map Prod.swap).map Prod.fst).map Neg.neg := by
        rw [List.map_map, List.map_map, List.map_map, List.map_map]
        rfl
      rw [hmap, ← neg_neg y, List.count_map_of_injective _ _ neg_injective, halong.count (-y)]
      congr 1
      apply propext
      omega
    · obtain ⟨q, hq, rfl⟩ := List.mem_map.mp hp
      obtain ⟨r, hr, rfl⟩ := List.mem_map.mp hq
      have hnear := halong.near r.swap (List.mem_map.mpr ⟨r, hr, rfl⟩)
      change |(r.1 : ℚ) - ideal (-Y0) X0 (-Y1) X1 (-r.2)| ≤ 1 / 2
      rw [ideal_neg_neg]
      exact hnear

/-! ### Counting -/

private theorem counted_succ {lo hi : Int} (h : lo ≤ hi) :
    counted lo hi = lo :: counted (lo + 1) hi := by
  have hturns : (hi + 1 - lo).toNat = (hi + 1 - (lo + 1)).toNat + 1 := by omega
  rw [counted, hturns, List.range_succ_eq_map, List.map_cons, List.map_map, counted]
  refine congrArg₂ _ (by simp) (List.map_congr_left fun i _ ↦ ?_)
  change lo + ((i + 1 : Nat) : Int) = lo + 1 + i
  omega

private theorem mem_counted {lo hi x : Int} : x ∈ counted lo hi ↔ lo ≤ x ∧ x ≤ hi := by
  rw [counted, List.mem_map]
  constructor
  · rintro ⟨i, hrange, rfl⟩
    have := List.mem_range.mp hrange
    omega
  · intro h
    exact ⟨(x - lo).toNat, List.mem_range.mpr (by omega), by omega⟩

private theorem nodup_counted (lo hi : Int) : (counted lo hi).Nodup := by
  refine List.Nodup.map (fun i j h ↦ ?_) List.nodup_range
  have : lo + (i : Int) = lo + j := h
  omega

private theorem count_counted (lo hi x : Int) :
    (counted lo hi).count x = if lo ≤ x ∧ x ≤ hi then 1 else 0 := by
  by_cases h : lo ≤ x ∧ x ≤ hi
  · rw [if_pos h]
    exact List.count_eq_one_of_mem (nodup_counted lo hi) (mem_counted.mpr h)
  · rw [if_neg h]
    exact List.count_eq_zero.mpr (mt mem_counted.mp h)

/-- Each value is one more than the one before. -/
theorem chain_counted (lo hi : Int) : (counted lo hi).IsChain fun a b ↦ b = a + 1 := by
  rw [counted, List.isChain_map, List.isChain_iff_getElem]
  intro i hi
  rw [List.getElem_range, List.getElem_range]
  push_cast
  omega

/-! ### Horizontal lines -/

private theorem along_row {x0 x1 : Int} (hle : x0 ≤ x1) (y : Int) :
    Along x0 y x1 y ((counted x0 x1).map fun x ↦ (x, y)) := by
  have hcolumns : ((counted x0 x1).map fun x ↦ (x, y)).map Prod.fst = counted x0 x1 := by
    rw [List.map_map]
    exact List.map_id _
  refine ⟨fun x ↦ ?_, fun p hp ↦ ?_⟩
  · rw [hcolumns, count_counted, min_eq_left hle, max_eq_right hle]
  · obtain ⟨x, -, rfl⟩ := List.mem_map.mp hp
    have hideal : ideal x0 y x1 y x = y := by
      rw [ideal, sub_self, mul_zero, zero_div, add_zero]
    change |(y : ℚ) - ideal x0 y x1 y x| ≤ 1 / 2
    rw [hideal, sub_self, abs_zero]
    exact div_nonneg zero_le_one zero_le_two

/-- A row of points is a line. -/
theorem row_isLine {x0 x1 : Int} (hle : x0 ≤ x1) (y : Int) :
    IsLine x0 y x1 y ((counted x0 x1).map fun x ↦ (x, y)) := by
  refine ⟨List.mem_map.mpr ⟨x0, mem_counted.mpr ⟨le_refl _, hle⟩, rfl⟩,
    List.mem_map.mpr ⟨x1, mem_counted.mpr ⟨hle, le_refl _⟩, rfl⟩, ?_, fun _ ↦ along_row hle y, ?_⟩
  · rw [List.isChain_map]
    refine (chain_counted x0 x1).imp fun a b hab ↦ ⟨?_, ?_⟩
    · change |b - a| ≤ 1
      rw [hab, add_sub_cancel_left, abs_one]
    · change |y - y| ≤ 1
      rw [sub_self, abs_zero]
      exact zero_le_one
  · -- the line is a single point
    intro hdist
    rw [sub_self, abs_zero, abs_nonpos_iff, sub_eq_zero] at hdist
    subst hdist
    have hpoint : ((counted x1 x1).map fun x ↦ (x, y)).map Prod.swap =
        (counted y y).map fun y ↦ (y, x1) := by
      rw [counted_succ (le_refl x1), counted_succ (le_refl y)]
      simp [counted]
    rw [hpoint]
    exact along_row (le_refl y) x1

/-! ### The first octant -/

section Octant

variable {x0 y0 dx dy : Int}

/-- The loop visits the columns one after the other. -/
theorem columns_octantLoop (dx dy : Int) (n : Nat) (x y d : Int) :
    x :: (octantLoop dx dy n x y d).map Prod.fst = counted x (x + n) := by
  induction n generalizing x y d with
  | zero =>
    rw [counted_succ (by omega)]
    simp [octantLoop, counted]
  | succ n ih =>
    have hnext : x + ((n + 1 : Nat) : Int) = x + 1 + n := by omega
    rw [counted_succ (by omega), hnext, octantLoop]
    split
    · rw [List.map_cons, ih]
    · rw [List.map_cons, ih]

private theorem adjacent_octantLoop (dx dy : Int) (n : Nat) (x y d : Int) :
    ((x, y) :: octantLoop dx dy n x y d).IsChain Adjacent := by
  induction n generalizing x y d with
  | zero => exact .singleton _
  | succ n ih =>
    rw [octantLoop]
    split
    · exact .cons_cons ⟨by simp, by simp⟩ (ih _ _ _)
    · exact .cons_cons ⟨by simp, by simp⟩ (ih _ _ _)

/-- The decision variable is `2 * e + 2 * dy - dx`, where `e` is how far the point is from the line,
times `dx`. The error stays within one half. -/
theorem near_octantLoop (h0 : 0 ≤ dy) (hle : dy ≤ dx) (n : Nat) (x y e : Int) (he : |2 * e| ≤ dx) :
    ∀ p ∈ octantLoop dx dy n x y (2 * e + 2 * dy - dx),
      |2 * (e + dy * (p.1 - x) - dx * (p.2 - y))| ≤ dx := by
  induction n generalizing x y e with
  | zero => rintro p ⟨⟩
  | succ n ih =>
    rw [abs_le] at he
    intro p hp
    rw [octantLoop] at hp
    split at hp
    next hd =>
      have he' : |2 * (e + dy)| ≤ dx := abs_le.mpr ⟨by omega, by omega⟩
      have hvar : 2 * e + 2 * dy - dx + 2 * dy = 2 * (e + dy) + 2 * dy - dx := by ring
      rw [hvar] at hp
      have herr : e + dy * (p.1 - x) - dx * (p.2 - y) =
          e + dy + dy * (p.1 - (x + 1)) - dx * (p.2 - y) := by ring
      rw [herr]
      rcases List.mem_cons.mp hp with rfl | hp
      · simpa using he'
      · exact ih (x + 1) y (e + dy) he' p hp
    next hd =>
      have he' : |2 * (e + dy - dx)| ≤ dx := abs_le.mpr ⟨by omega, by omega⟩
      have hvar : 2 * e + 2 * dy - dx + 2 * (dy - dx) = 2 * (e + dy - dx) + 2 * dy - dx := by ring
      rw [hvar] at hp
      have herr : e + dy * (p.1 - x) - dx * (p.2 - y) =
          e + dy - dx + dy * (p.1 - (x + 1)) - dx * (p.2 - (y + 1)) := by ring
      rw [herr]
      rcases List.mem_cons.mp hp with rfl | hp
      · simpa using he'
      · exact ih (x + 1) (y + 1) (e + dy - dx) he' p hp

/-- A multiple of a positive number that is at most half of it is 0. -/
theorem eq_zero_of_abs_le {dx k : Int} (hdx : 0 < dx) (h : |2 * (dx * k)| ≤ dx) : k = 0 := by
  by_contra hk
  have hone : 1 ≤ |k| := Int.one_le_abs hk
  have hle : dx ≤ dx * |k| := le_mul_of_one_le_right hdx.le hone
  rw [abs_mul, abs_mul, abs_of_pos hdx, abs_of_pos (show (0 : Int) < 2 by decide)] at h
  omega

/-- The error of a point in the first octant, as a part of a row. -/
theorem near_ideal {x0 y0 x1 y1 : Int} (hx : x0 < x1) {x y : Int}
    (h : |2 * ((y1 - y0) * (x - x0) - (x1 - x0) * (y - y0))| ≤ x1 - x0) :
    |(y : ℚ) - ideal x0 y0 x1 y1 x| ≤ 1 / 2 := by
  have hdx : (0 : ℚ) < (x1 : ℚ) - x0 := sub_pos.mpr (Int.cast_lt.mpr hx)
  have herr : (y : ℚ) - ideal x0 y0 x1 y1 x =
      -(((y1 : ℚ) - y0) * (x - x0) - ((x1 : ℚ) - x0) * (y - y0)) / ((x1 : ℚ) - x0) := by
    unfold ideal
    field_simp
    ring
  have hcast : |2 * (((y1 : ℚ) - y0) * (x - x0) - ((x1 : ℚ) - x0) * (y - y0))| ≤ (x1 : ℚ) - x0 := by
    exact_mod_cast h
  rw [abs_mul, abs_of_pos (show (0 : ℚ) < 2 by norm_num)] at hcast
  rw [herr, abs_div, abs_neg, abs_of_pos hdx, div_le_iff₀ hdx]
  linarith

variable {e : Ends}

private theorem columns_octant (hx : e.x0 ≤ e.x1) :
    (octant e).map Prod.fst = counted e.x0 e.x1 := by
  have hend : e.x0 + ((e.x1 - e.x0).toNat : Int) = e.x1 := by omega
  rw [octant, List.map_cons, columns_octantLoop, hend]

private theorem near_octant (hy : e.y0 ≤ e.y1) (hle : e.y1 - e.y0 ≤ e.x1 - e.x0) :
    ∀ p ∈ octant e,
      |2 * ((e.y1 - e.y0) * (p.1 - e.x0) - (e.x1 - e.x0) * (p.2 - e.y0))| ≤ e.x1 - e.x0 := by
  intro p hp
  rcases List.mem_cons.mp hp with rfl | hp
  · simp only [sub_self, mul_zero, abs_zero]
    omega
  · have hloop := near_octantLoop (show 0 ≤ e.y1 - e.y0 by omega) hle (e.x1 - e.x0).toNat e.x0 e.y0
      0
      (by rw [mul_zero, abs_zero]; omega)
    rw [mul_zero, zero_add] at hloop
    simpa only [zero_add] using hloop p hp

private theorem last_octant (hx : e.x0 < e.x1) (hy : e.y0 ≤ e.y1)
    (hle : e.y1 - e.y0 ≤ e.x1 - e.x0) :
    (e.x1, e.y1) ∈ octant e := by
  have hmem : e.x1 ∈ (octant e).map Prod.fst := by
    rw [columns_octant hx.le]
    exact mem_counted.mpr ⟨hx.le, le_refl _⟩
  obtain ⟨p, hp, hcol⟩ := List.mem_map.mp hmem
  have hnear := near_octant hy hle p hp
  have herr : (e.y1 - e.y0) * (p.1 - e.x0) - (e.x1 - e.x0) * (p.2 - e.y0) =
      (e.x1 - e.x0) * (e.y1 - p.2) := by
    rw [hcol]
    ring
  rw [herr] at hnear
  have hrow := eq_zero_of_abs_le (by omega) hnear
  have hpoint : p = (e.x1, e.y1) := Prod.ext hcol (by change p.2 = e.y1; omega)
  exact hpoint ▸ hp

/-- The points of the first octant are a line. -/
theorem octant_isLine (hx : e.x0 < e.x1) (hy : e.y0 ≤ e.y1) (hle : e.y1 - e.y0 ≤ e.x1 - e.x0) :
    IsLine e.x0 e.y0 e.x1 e.y1 (octant e) := by
  have hcolumns := columns_octant hx.le
  have hnear := near_octant hy hle
  refine ⟨List.mem_cons_self, last_octant hx hy hle, adjacent_octantLoop _ _ _ _ _ _,
    fun _ ↦ ?_, ?_⟩
  · refine ⟨fun x ↦ ?_, fun p hp ↦ near_ideal hx (hnear p hp)⟩
    rw [hcolumns, count_counted, min_eq_left hx.le, max_eq_right hx.le]
  · intro hdist
    rw [abs_of_pos (by omega), abs_of_nonneg (by omega)] at hdist
    have hslope : e.y1 - e.y0 = e.x1 - e.x0 := by omega
    -- the slope is 1, so every point is on the diagonal
    have hdiag : ∀ p ∈ octant e, p.2 = p.1 + (e.y0 - e.x0) := by
      intro p hp
      have h := hnear p hp
      rw [hslope, ← mul_sub] at h
      have := eq_zero_of_abs_le (by omega) h
      omega
    have hrows : ((octant e).map Prod.swap).map Prod.fst =
      (counted e.x0 e.x1).map (· + (e.y0 - e.x0)) := by
      rw [← hcolumns, List.map_map, List.map_map]
      exact List.map_congr_left hdiag
    refine ⟨fun y ↦ ?_, fun p hp ↦ ?_⟩
    · rw [hrows, ← sub_add_cancel y (e.y0 - e.x0),
        List.count_map_of_injective _ _ (add_left_injective _),
        count_counted]
      congr 1
      apply propext
      omega
    · obtain ⟨q, hq, rfl⟩ := List.mem_map.mp hp
      have hpos : (0 : ℚ) < (e.x1 : ℚ) - e.x0 := sub_pos.mpr (Int.cast_lt.mpr hx)
      have hslope' : (e.y1 : ℚ) - e.y0 = (e.x1 : ℚ) - e.x0 := by exact_mod_cast hslope
      have hideal : ideal e.y0 e.x0 e.y1 e.x1 q.2 = q.1 := by
        rw [ideal, hslope', mul_div_cancel_right₀ _ hpos.ne', hdiag q hq]
        push_cast
        ring
      change |(q.1 : ℚ) - ideal e.y0 e.x0 e.y1 e.x1 q.2| ≤ 1 / 2
      rw [hideal, sub_self, abs_zero]
      exact div_nonneg zero_le_one zero_le_two

end Octant

/-! ### All octants -/

private theorem drawn_comp (yflag xyflag : Bool) :
    drawn yflag false ∘ drawn false xyflag = drawn yflag xyflag := by
  funext p
  cases yflag
  · cases xyflag
    · rfl
    · rfl
  · cases xyflag
    · rfl
    · rfl

/-- The swap of the axes is undone. -/
theorem drawn_swapAxes (e : Ends) {pts : List (Int × Int)}
    (h : IsLine e.swapAxes.x0 e.swapAxes.y0 e.swapAxes.x1 e.swapAxes.y1 pts) :
    IsLine e.x0 e.y0 e.x1 e.y1 (pts.map (drawn false e.xyflag)) := by
  unfold Ends.swapAxes at h
  cases hflag : e.xyflag with
  | true =>
    simp only [hflag, if_true] at h
    exact h.swapAxes
  | false =>
    simp only [hflag, if_neg Bool.false_ne_true] at h
    have hid : pts.map (drawn false false) = pts := List.map_id _
    rw [hid]
    exact h

/-- The reflection is undone. -/
theorem drawn_reflect (e : Ends) {pts : List (Int × Int)}
    (h : IsLine e.reflect.x0 e.reflect.y0 e.reflect.x1 e.reflect.y1 pts) :
    IsLine e.x0 e.y0 e.x1 e.y1 (pts.map (drawn e.yflag false)) := by
  unfold Ends.reflect at h
  cases hflag : e.yflag with
  | true =>
    simp only [hflag, if_true] at h
    have hflip := h.flip
    rw [neg_neg, neg_neg] at hflip
    exact hflip
  | false =>
    simp only [hflag, if_neg Bool.false_ne_true] at h
    have hid : pts.map (drawn false false) = pts := List.map_id _
    rw [hid]
    exact h

private theorem reflect_rises {e : Ends} (hx : e.x0 < e.x1) (hy : e.y0 ≠ e.y1) :
    e.reflect.x0 < e.reflect.x1 ∧ e.reflect.y0 < e.reflect.y1 := by
  unfold Ends.reflect
  cases hflag : e.yflag with
  | true =>
    have := of_decide_eq_true hflag
    exact ⟨hx, show -e.y0 < -e.y1 by omega⟩
  | false =>
    have := of_decide_eq_false hflag
    exact ⟨hx, show e.y0 < e.y1 by omega⟩

private theorem swapAxes_octant {e : Ends} (hx : e.x0 < e.x1) (hy : e.y0 < e.y1) :
    e.swapAxes.x0 < e.swapAxes.x1 ∧ e.swapAxes.y0 ≤ e.swapAxes.y1 ∧
      e.swapAxes.y1 - e.swapAxes.y0 ≤ e.swapAxes.x1 - e.swapAxes.x0 := by
  unfold Ends.swapAxes
  cases hflag : e.xyflag with
  | true =>
    have := of_decide_eq_true hflag
    exact ⟨hy, hx.le, show e.x1 - e.x0 ≤ e.y1 - e.y0 by omega⟩
  | false =>
    have := of_decide_eq_false hflag
    exact ⟨hx, hy.le, show e.y1 - e.y0 ≤ e.x1 - e.x0 by omega⟩

/-- The diagonal branch draws a line, behind the swap of the end points. -/
theorem diagonal_isLine {e : Ends} (hx : e.x0 < e.x1) (hy : e.y0 ≠ e.y1) :
    IsLine e.x0 e.y0 e.x1 e.y1
      ((octant e.reflect.swapAxes).map (drawn e.yflag e.reflect.xyflag)) := by
  obtain ⟨hx', hy'⟩ := reflect_rises hx hy
  obtain ⟨hx'', hy'', hle⟩ := swapAxes_octant hx' hy'
  have hline := drawn_reflect e (drawn_swapAxes e.reflect (octant_isLine hx'' hy'' hle))
  rw [List.map_map, drawn_comp] at hline
  exact hline

private theorem linePoints_isLine (X0 Y0 X1 Y1 : Int) :
    IsLine X0 Y0 X1 Y1 (linePoints X0 Y0 X1 Y1) := by
  unfold linePoints
  split
  next hY =>
    subst hY
    split
    · exact (row_isLine (by omega) Y0).ends
    · exact row_isLine (by omega) Y0
  next hY =>
  split
  next hX =>
    subst hX
    have hcolumn (ys : List Int) : ys.map (fun y ↦ (X0, y)) =
        (ys.map fun y ↦ (y, X0)).map Prod.swap := by
      rw [List.map_map]
      rfl
    rw [hcolumn]
    split
    · exact (row_isLine (by omega) X0).swapAxes.ends
    · exact (row_isLine (by omega) X0).swapAxes
  next hX =>
    dsimp only
    unfold Ends.fromLeft
    split
    next hgt => exact (diagonal_isLine (e := ⟨X1, Y1, X0, Y0⟩) hgt fun h ↦ hY h.symm).ends
    next hgt => exact diagonal_isLine (e := ⟨X0, Y0, X1, Y1⟩) (by simp at hgt ⊢; omega) hY

/-- The points do not depend on the end at which the line begins. -/
theorem linePoints_comm (X0 Y0 X1 Y1 : Int) : linePoints X1 Y1 X0 Y0 = linePoints X0 Y0 X1 Y1 := by
  have hcounted (a b : Int) : (if a > b then counted b a else counted a b) =
      if b > a then counted a b else counted b a := by
    split
    · rw [if_neg (by omega)]
    · split
      · rfl
      · rw [show a = b by omega]
  unfold linePoints
  by_cases hY : Y0 = Y1
  · rw [if_pos hY, if_pos hY.symm, hcounted X1 X0, hY]
  rw [if_neg hY, if_neg (Ne.symm hY)]
  by_cases hX : X0 = X1
  · rw [if_pos hX, if_pos hX.symm, hcounted Y1 Y0, hX]
  rw [if_neg hX, if_neg (Ne.symm hX)]
  have hends : (Ends.mk X1 Y1 X0 Y0).fromLeft = (Ends.mk X0 Y0 X1 Y1).fromLeft := by
    unfold Ends.fromLeft
    dsimp only
    by_cases hgt : X0 > X1
    · rw [if_pos hgt, if_neg (by omega)]
    · rw [if_neg hgt, if_pos (by omega)]
  rw [hends]

/-- `OLED_DrawLine` draws a correct line in all octants, and draws the same points from the other
end. -/
theorem drawLine_correct (X0 Y0 X1 Y1 : Int) :
    IsLine X0 Y0 X1 Y1 (linePoints X0 Y0 X1 Y1) ∧
      ∀ p, p ∈ linePoints X1 Y1 X0 Y0 ↔ p ∈ linePoints X0 Y0 X1 Y1 :=
  ⟨linePoints_isLine X0 Y0 X1 Y1, fun p ↦ by rw [linePoints_comm]⟩

end Xv6K210.Oled
