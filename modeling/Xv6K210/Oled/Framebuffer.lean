import Mathlib.Logic.Function.Basic
import Xv6K210.Base.BitSet
import Xv6K210.Base.Loops

/-!
# The framebuffer of the display

Source `user/libc/oled.c:27–77` and `kernel/include/oledfb.h`. The framebuffer is
mapped shared with the driver; a byte of it is a column of eight pixels, and the bytes of a page of
eight rows follow each other. Coordinates are of type `int`; `>> 3` and `& 7` are the quotient and
the remainder by 8, below zero also.
-/

namespace Xv6K210.Oled

open Base Function

/-- `OLEDFB_W`. -/
def OLEDFB_W : Int := 128

/-- `OLEDFB_H`. -/
def OLEDFB_H : Int := 64

/-- `OLEDFB_FB_SIZE`. -/
def OLEDFB_FB_SIZE : Int := OLEDFB_W * OLEDFB_H / 8

/-- The bytes at the offsets from `fb`. -/
abbrev Fb := Int → BitVec 8

/-- `fb[i]` is read and written. The access fails outside of the mapping, with its offset. -/
def Fb.modify (fb : Fb) (i : Int) (f : BitVec 8 → BitVec 8) : Except Int Fb :=
  if 0 ≤ i ∧ i < OLEDFB_FB_SIZE then .ok (update fb i (f (fb i))) else .error i

/-- The pixel in column `x` and row `y`. -/
def Fb.pixel (fb : Fb) (x y : Int) : Bool := (fb (y / 8 * OLEDFB_W + x)).getLsbD (y % 8).toNat

/-- The column and the row are on the screen. -/
def OnScreen (x y : Int) : Prop := 0 ≤ x ∧ x < OLEDFB_W ∧ 0 ≤ y ∧ y < OLEDFB_H

/-- The byte is not in the framebuffer. -/
def Outside (i : Int) : Prop := i < 0 ∨ OLEDFB_FB_SIZE ≤ i

/-- `OLED_DrawPoint`. -/
def oledDrawPoint (fb : Option Fb) (X Y : Int) : Except Int (Option Fb) :=
  match fb with
  | none => .ok none
  | some fb =>
    if X < 0 ∨ OLEDFB_W ≤ X ∨ Y < 0 ∨ OLEDFB_H ≤ Y then .ok (some fb)
    else do
      let fb ← fb.modify (Y / 8 * OLEDFB_W + X) (· ||| bit 8 (Y % 8).toNat)
      pure (some fb)

/-- The loop of `OLED_ClearArea` over the rows `[b0, b1)` of a page. -/
def clearMask (b0 b1 : Int) : Except Int (BitVec 8) :=
  forLoop b0 b1 (fun bit mask ↦ .ok (mask &&& ~~~ Base.bit 8 bit.toNat)) 0xFF#8

/-- The body of the loop of `OLED_ClearArea` over the pages. -/
def clearPage (Y H x0 x1 page : Int) (fb : Fb) : Except Int Fb := do
  let b0 := if Y > page * 8 then Y - page * 8 else 0
  let b1 := if Y + H < (page + 1) * 8 then Y + H - page * 8 else 8
  let mask ← clearMask b0 b1
  forLoop x0 x1 (fun col fb ↦ fb.modify (page * OLEDFB_W + col) (· &&& mask)) fb

/-- `OLED_ClearArea`. -/
def oledClearArea (fb : Option Fb) (X Y W H : Int) : Except Int (Option Fb) :=
  match fb with
  | none => .ok none
  | some fb =>
    if W ≤ 0 ∨ H ≤ 0 then .ok (some fb)
    else if X ≥ OLEDFB_W ∨ Y ≥ OLEDFB_H ∨ X + W ≤ 0 ∨ Y + H ≤ 0 then .ok (some fb)
    else do
      let x0 := if X > 0 then X else 0
      let x1 := if X + W < OLEDFB_W then X + W else OLEDFB_W
      let p0 := Y / 8
      let p1 := (Y + H - 1) / 8
      let p1 := if p1 > OLEDFB_H / 8 - 1 then OLEDFB_H / 8 - 1 else p1
      let fb ← forLoop p0 (p1 + 1) (clearPage Y H x0 x1) fb
      pure (some fb)

/-! ### One row of bytes -/

/-- A change inside the framebuffer. -/
theorem modify_ok {fb : Fb} {i : Int} (h0 : 0 ≤ i) (h1 : i < 1024) (f : BitVec 8 → BitVec 8) :
    fb.modify i f = .ok (update fb i (f (fb i))) := by
  have hsize : OLEDFB_FB_SIZE = 1024 := rfl
  rw [Fb.modify, if_pos ⟨h0, by omega⟩]

private theorem modify_error {fb : Fb} {i : Int} (h : i < 0) (f : BitVec 8 → BitVec 8) :
    fb.modify i f = .error i := by
  rw [Fb.modify, if_neg (by omega)]

/-- A loop over the columns `[lo, hi)` that writes the byte of each of them. -/
theorem columns_ok (body : Int → Fb → Except Int Fb) (g : Int → BitVec 8 → BitVec 8)
    (base : Int) {lo hi : Int} (hle : lo ≤ hi)
    (hbody : ∀ c fb, lo ≤ c → c < hi →
      body c fb = .ok (update fb (base + c) (g c (fb (base + c))))) (fb : Fb) :
    forLoop lo hi body fb = .ok fun i ↦
      if base + lo ≤ i ∧ i < base + hi then g (i - base) (fb i) else fb i := by
  obtain ⟨t, hrun, rfl⟩ := forLoop_invariant body
    (fun c t ↦ t = fun i ↦ if base + lo ≤ i ∧ i < base + c then g (i - base) (fb i) else fb i) hle
    (fun c s hlo hhi hs ↦ ⟨_, hbody c s hlo hhi, by
      subst hs
      funext i
      by_cases hi : i = base + c
      · subst hi
        rw [update_self]
        dsimp only
        rw [if_neg (by omega), if_pos (by omega), show base + c - base = c by omega]
      · rw [update_of_ne hi]
        by_cases hin : base + lo ≤ i ∧ i < base + c
        · rw [if_pos hin, if_pos (by omega)]
        · rw [if_neg hin, if_neg (by omega)]⟩)
    fb (by
      funext i
      rw [if_neg (by omega)])
  exact hrun

/-- The pixels after a write to the bytes of the columns `[lo, hi)` of a page. -/
theorem pixel_columns (g : Int → BitVec 8 → BitVec 8) (fb : Fb) {page lo hi x y : Int}
    (hlo : 0 ≤ lo) (hhi : hi ≤ 128) (hx : 0 ≤ x) (hx' : x < 128) :
    Fb.pixel (fun i ↦ if page * OLEDFB_W + lo ≤ i ∧ i < page * OLEDFB_W + hi
        then g (i - page * OLEDFB_W) (fb i) else fb i) x y =
      if y / 8 = page ∧ lo ≤ x ∧ x < hi
        then (g x (fb (page * OLEDFB_W + x))).getLsbD (y % 8).toNat else fb.pixel x y := by
  unfold Fb.pixel OLEDFB_W
  dsimp only
  by_cases h : y / 8 = page ∧ lo ≤ x ∧ x < hi
  · obtain ⟨rfl, hl, hh⟩ := h
    rw [if_pos ⟨by omega, by omega⟩, if_pos ⟨rfl, hl, hh⟩,
      show y / 8 * 128 + x - y / 8 * 128 = x by omega]
  · rw [if_neg h, if_neg]
    intro hin
    exact h (by omega)

/-! ### Points -/

/-! ### Rectangles -/

/-- The mask has the bits of all rows but `[b0, b1)`. -/
theorem clearMask_ok (b0 b1 : Int) (h0 : 0 ≤ b0) (hle : b0 ≤ b1) :
    ∃ mask, clearMask b0 b1 = .ok mask ∧
      ∀ k : Nat, k < 8 →
        mask.getLsbD k = !(decide (b0 ≤ (k : Int)) && decide ((k : Int) < b1)) := by
  apply forLoop_invariant _
    (fun b (mask : BitVec 8) ↦ ∀ k : Nat, k < 8 →
      mask.getLsbD k = !(decide (b0 ≤ (k : Int)) && decide ((k : Int) < b))) hle
  · intro b mask hlo _ hmask
    refine ⟨_, rfl, fun k hk ↦ ?_⟩
    have hbit : b.toNat = k ↔ (k : Int) = b := by omega
    rw [BitVec.getLsbD_and, BitVec.getLsbD_not, getLsbD_bit, hmask k hk]
    by_cases hkb : (k : Int) = b
    · have : b0 ≤ (k : Int) ∧ (k : Int) < b + 1 := by omega
      simp [hk, hbit.mpr hkb, this]
    · have : (k : Int) < b + 1 ↔ (k : Int) < b := by omega
      simp [hk, mt hbit.mp hkb, this]
  · intro k hk
    have hfull : ∀ k < 8, (0xFF#8).getLsbD k = true := by decide
    have hnone : ¬ (b0 ≤ (k : Int) ∧ (k : Int) < b0) := by omega
    rw [hfull k hk, ← Bool.decide_and, decide_eq_false hnone]
    rfl

/-- A page of the screen is cleared in the columns `[x0, x1)` and the rows `[Y, Y + H)`. -/
theorem clearPage_ok {Y H x0 x1 page : Int} (hH : 0 < H) (hx0 : 0 ≤ x0) (hx : x0 ≤ x1)
    (hx1 : x1 ≤ 128) (hpage : 0 ≤ page) (hpage' : page < 8) (hlo : Y / 8 ≤ page)
    (hhi : page ≤ (Y + H - 1) / 8) (fb : Fb) :
    ∃ t, clearPage Y H x0 x1 page fb = .ok t ∧
      (∀ x y, OnScreen x y → t.pixel x y =
        if y / 8 = page ∧ x0 ≤ x ∧ x < x1 ∧ Y ≤ y ∧ y < Y + H then false else fb.pixel x y) ∧
      ∀ i, Outside i → t i = fb i := by
  unfold clearPage
  dsimp only
  obtain ⟨mask, hmask, hbits⟩ := clearMask_ok
    (if Y > page * 8 then Y - page * 8 else 0)
    (if Y + H < (page + 1) * 8 then Y + H - page * 8 else 8)
    (by split <;> omega) (by split <;> split <;> omega)
  have hcolumns := columns_ok (fun col fb ↦ fb.modify (page * OLEDFB_W + col) (· &&& mask))
    (fun _ b ↦ b &&& mask) (page * OLEDFB_W) hx
    (fun c fb hc hc' ↦ by
      unfold OLEDFB_W
      exact modify_ok (by omega) (by omega) _) fb
  rw [hmask]
  refine ⟨_, hcolumns, fun x y hon ↦ ?_, fun i hout ↦ ?_⟩
  · unfold OnScreen OLEDFB_W OLEDFB_H at hon
    rw [pixel_columns (fun _ b ↦ b &&& mask) fb hx0 hx1 hon.1 hon.2.1]
    by_cases hin : y / 8 = page ∧ x0 ≤ x ∧ x < x1
    · obtain ⟨rfl, hl, hr⟩ := hin
      have hrow : ((y % 8).toNat : Int) = y % 8 := by omega
      have hkept : mask.getLsbD (y % 8).toNat = !decide (Y ≤ y ∧ y < Y + H) := by
        rw [hbits _ (by omega), hrow, ← Bool.decide_and]
        congr 1
        apply decide_eq_decide.mpr
        split <;> split <;> omega
      rw [if_pos ⟨rfl, hl, hr⟩, BitVec.getLsbD_and, hkept, Fb.pixel]
      by_cases hrows : Y ≤ y ∧ y < Y + H
      · simp [hl, hr, hrows]
      · simp [hrows]
    · rw [if_neg hin, if_neg (by omega)]
  · unfold Outside OLEDFB_FB_SIZE OLEDFB_W OLEDFB_H at hout
    unfold OLEDFB_W
    exact if_neg (by omega)

/-- The first write to a page above the screen fails. -/
theorem clearPage_error {Y H x0 x1 page : Int} (hH : 0 < H) (hx : x0 < x1)
    (hx1 : x1 ≤ 128) (hpage : page < 0) (hlo : Y / 8 ≤ page) (hhi : page ≤ (Y + H - 1) / 8)
    (fb : Fb) : clearPage Y H x0 x1 page fb = .error (page * OLEDFB_W + x0) := by
  unfold clearPage
  dsimp only
  obtain ⟨mask, hmask, -⟩ := clearMask_ok
    (if Y > page * 8 then Y - page * 8 else 0)
    (if Y + H < (page + 1) * 8 then Y + H - page * 8 else 8)
    (by split <;> omega) (by split <;> split <;> omega)
  rw [hmask]
  apply forLoop_error hx
  apply modify_error
  unfold OLEDFB_W
  omega

/-- The columns that are left of `[X, X + W)` on the screen. -/
theorem clip_columns {X W x0 x1 : Int} (hx0 : x0 = if X > 0 then X else 0)
    (hx1 : x1 = if X + W < OLEDFB_W then X + W else OLEDFB_W) (hW : 0 < W) (hright : X < OLEDFB_W)
    (hleft : 0 < X + W) :
    0 ≤ x0 ∧ x0 < x1 ∧ x1 ≤ 128 ∧
      ∀ x, 0 ≤ x → x < OLEDFB_W → (x0 ≤ x ∧ x < x1 ↔ X ≤ x ∧ x < X + W) := by
  unfold OLEDFB_W at *
  rw [hx0, hx1]
  refine ⟨by split <;> omega, by split <;> split <;> omega, by split <;> omega, fun x h h' ↦ ?_⟩
  split <;> split <;> omega

/-- The pages of the screen from the first of the rectangle on are cleared up to the page `p1`. -/
theorem clearPages_ok {Y H x0 x1 p1 : Int} (hH : 0 < H) (hx0 : 0 ≤ x0) (hx : x0 ≤ x1)
    (hx1 : x1 ≤ 128) (hY : 0 ≤ Y) (hfirst : Y / 8 ≤ p1) (hscreen : p1 < 8)
    (hlast : p1 ≤ (Y + H - 1) / 8) (fb : Fb) :
    ∃ t, forLoop (Y / 8) (p1 + 1) (clearPage Y H x0 x1) fb = .ok t ∧
      (∀ x y, OnScreen x y → t.pixel x y =
        if x0 ≤ x ∧ x < x1 ∧ Y ≤ y ∧ y < Y + H ∧ y / 8 < p1 + 1 then false else fb.pixel x y) ∧
      ∀ i, Outside i → t i = fb i := by
  apply forLoop_invariant (clearPage Y H x0 x1)
    (fun page t ↦ (∀ x y, OnScreen x y → t.pixel x y =
        if x0 ≤ x ∧ x < x1 ∧ Y ≤ y ∧ y < Y + H ∧ y / 8 < page then false else fb.pixel x y) ∧
      ∀ i, Outside i → t i = fb i)
    (show Y / 8 ≤ p1 + 1 by omega)
  · intro page s hlo hhi hs
    obtain ⟨t, hrun, hpix, hout⟩ :=
      clearPage_ok hH hx0 hx hx1 (show 0 ≤ page by omega) (by omega) hlo (by omega) s
    refine ⟨t, hrun, fun x y hon ↦ ?_, fun i hi ↦ (hout i hi).trans (hs.2 i hi)⟩
    rw [hpix x y hon, hs.1 x y hon]
    by_cases hrect : x0 ≤ x ∧ x < x1 ∧ Y ≤ y ∧ y < Y + H
    · by_cases hlt : y / 8 < page
      · rw [if_neg (by omega), if_pos (by omega), if_pos (by omega)]
      · by_cases heq : y / 8 = page
        · rw [if_pos (by omega), if_pos (by omega)]
        · rw [if_neg (by omega), if_neg (by omega), if_neg (by omega)]
    · rw [if_neg (by omega), if_neg (by omega), if_neg (by omega)]
  · refine ⟨fun x y _ ↦ ?_, fun _ _ ↦ rfl⟩
    rw [if_neg (by omega)]

/-- `OLED_ClearArea` clears the part of a rectangle that is on the screen, if the rectangle does not
begin above it. If it does, the pages above are written as well, which is outside of the mapping. -/
theorem clearArea_exact (fb : Fb) (X Y W H : Int) :
    (∃ t, oledClearArea (some fb) X Y W H = .ok (some t) ∧
        (∀ x y, OnScreen x y → t.pixel x y =
          if X ≤ x ∧ x < X + W ∧ Y ≤ y ∧ y < Y + H then false else fb.pixel x y) ∧
        ∀ i, Outside i → t i = fb i) ↔
      0 ≤ Y ∨ W ≤ 0 ∨ H ≤ 0 ∨ OLEDFB_W ≤ X ∨ X + W ≤ 0 ∨ Y + H ≤ 0 := by
  have hh : OLEDFB_H = 64 := rfl
  have hempty : W ≤ 0 ∨ H ≤ 0 ∨ OLEDFB_W ≤ X ∨ OLEDFB_H ≤ Y ∨ X + W ≤ 0 ∨ Y + H ≤ 0 →
      (∀ x y, OnScreen x y → fb.pixel x y =
        if X ≤ x ∧ x < X + W ∧ Y ≤ y ∧ y < Y + H then false else fb.pixel x y) ∧
      ∀ i, Outside i → fb i = fb i := by
    refine fun h ↦ ⟨fun x y hon ↦ ?_, fun _ _ ↦ rfl⟩
    unfold OnScreen at hon
    rw [if_neg (by omega)]
  unfold oledClearArea
  dsimp only
  by_cases hsize : W ≤ 0 ∨ H ≤ 0
  · rw [if_pos hsize]
    exact iff_of_true ⟨fb, rfl, hempty (by omega)⟩ (by omega)
  rw [if_neg hsize]
  by_cases hoff : X ≥ OLEDFB_W ∨ Y ≥ OLEDFB_H ∨ X + W ≤ 0 ∨ Y + H ≤ 0
  · rw [if_pos hoff]
    exact iff_of_true ⟨fb, rfl, hempty (by omega)⟩ (by omega)
  rw [if_neg hoff]
  set x0 := if X > 0 then X else 0 with hx0
  set x1 := if X + W < OLEDFB_W then X + W else OLEDFB_W with hx1
  obtain ⟨hlo, hx, hhi, hcolumns⟩ := clip_columns hx0 hx1 (by omega) (by omega) (by omega)
  set p1 := if (Y + H - 1) / 8 > OLEDFB_H / 8 - 1 then OLEDFB_H / 8 - 1 else (Y + H - 1) / 8 with
    hp1
  have hpages : p1 < 8 ∧ p1 ≤ (Y + H - 1) / 8 ∧ Y / 8 ≤ p1 ∧
      ∀ y, y < 64 → y < Y + H → y / 8 ≤ p1 := by
    rw [hp1]
    refine ⟨by split <;> omega, by split <;> omega, by split <;> omega, fun y h h' ↦ ?_⟩
    split <;> omega
  by_cases hY : 0 ≤ Y
  · refine iff_of_true ?_ (by omega)
    obtain ⟨t, hrun, hpix, hout⟩ := clearPages_ok (show 0 < H by omega) hlo (Int.le_of_lt hx) hhi hY
      hpages.2.2.1 hpages.1 hpages.2.1 fb
    rw [hrun]
    refine ⟨t, rfl, fun x y hon ↦ ?_, hout⟩
    rw [hpix x y hon]
    unfold OnScreen at hon
    have hcolumn := hcolumns x hon.1 hon.2.1
    have hlast := hpages.2.2.2 y (by omega)
    by_cases hrect : X ≤ x ∧ x < X + W ∧ Y ≤ y ∧ y < Y + H
    · rw [if_pos hrect, if_pos (by omega)]
    · rw [if_neg hrect, if_neg (by omega)]
  · refine iff_of_false ?_ (by omega)
    rintro ⟨t, hrun, -⟩
    rw [forLoop_error (by omega) (clearPage_error (by omega) hx hhi (by omega)
      (Int.le_refl _) (by omega) fb)] at hrun
    cases hrun

/-- A rectangle that begins eight rows above the screen: the first byte written is before the
framebuffer. -/
theorem clearArea_above :
    ¬ ∃ t, oledClearArea (some fun _ ↦ 0xFF#8) 0 (-8) 1 16 = .ok (some t) := by
  rintro ⟨t, hrun⟩
  have herror : oledClearArea (some fun _ ↦ 0xFF#8) 0 (-8) 1 16 = .error (-128) := rfl
  rw [herror] at hrun
  cases hrun

end Xv6K210.Oled
