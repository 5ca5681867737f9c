import Mathlib.Tactic.Ring
import Xv6K210.Oled.Framebuffer

/-!
# Bitmaps on the display

Source `user/libc/oled.c:79–126`. A bitmap is stored in pages of eight rows like the
framebuffer. Where both are aligned to pages its bytes are copied, and else its pixels; the two ways
set the same pixels. An offset into a bitmap is less than its size, so it does not overflow.
-/

namespace Xv6K210.Oled

open Base

/-- The bytes of a bitmap. -/
abbrev Bitmap := Int → BitVec 8

/-- The pixel in column `c` and row `r` of a bitmap of width `w`. -/
def Bitmap.pixel (image : Bitmap) (w c r : Int) : Bool :=
  (image (r / 8 * w + c)).getLsbD (r % 8).toNat

/-- The loop of the first branch of `OLED_ShowImage`, with the offset of `Image` in the bitmap. The
page rises to 8, so the first argument bounds the turns. -/
def alignedLoop (w col0 col1 imgCol : Int) (image : Bitmap) :
    Nat → Int → Int → Int → Fb → Except Int Fb
  | 0, _, _, _, fb => .ok fb
  | n + 1, off, p, h, fb =>
    if p < 8 ∧ h > 0 then do
      let fbOff := p * OLEDFB_W + col0
      let fb ← forLoop 0 (col1 - col0)
        (fun i fb ↦ fb.modify (fbOff + i) (· ||| image (off + (imgCol + i)))) fb
      alignedLoop w col0 col1 imgCol image n (off + w) (p + 1) (h - 8) fb
    else .ok fb

/-- The first branch of `OLED_ShowImage`: one byte of the bitmap for each byte of the
framebuffer. -/
def showAligned (X Y w h col0 col1 : Int) (image : Bitmap) (fb : Fb) : Except Int Fb :=
  alignedLoop w col0 col1 (col0 - X) image (8 - Y / 8).toNat 0 (Y / 8) h fb

/-- The body of the loop of the second branch of `OLED_ShowImage` over the rows. -/
def showRow (X Y w col0 col1 : Int) (image : Bitmap) (row : Int) (fb : Fb) : Except Int Fb :=
  let sr := row - Y
  let page := row / 8
  let imgOff := sr / 8 * w + (col0 - X)
  forLoop col0 col1 (fun col fb ↦
    if hasBit (image (imgOff + (col - col0))) (sr % 8).toNat then
      fb.modify (page * OLEDFB_W + col) (· ||| bit 8 (row % 8).toNat)
    else .ok fb) fb

/-- The second branch of `OLED_ShowImage`: pixel by pixel. -/
def showPixels (X Y w h col0 col1 : Int) (image : Bitmap) (fb : Fb) : Except Int Fb :=
  forLoop Y (if Y + h < OLEDFB_H then Y + h else OLEDFB_H) (showRow X Y w col0 col1 image) fb

/-- The leftmost column on the screen, `col0`. -/
def firstCol (X : Int) : Int := if X > 0 then X else 0

/-- The column behind the rightmost one on the screen, `col1`. -/
def endCol (X w : Int) : Int := if X + w < OLEDFB_W then X + w else OLEDFB_W

/-- `OLED_ShowImage`. -/
def oledShowImage (fb : Option Fb) (X Y w h : Int) (image : Option Bitmap) :
    Except Int (Option Fb) :=
  match fb, image with
  | some fb, some image =>
    if w ≤ 0 ∨ h ≤ 0 then .ok (some fb)
    else if X ≥ OLEDFB_W ∨ Y ≥ OLEDFB_H ∨ X + w ≤ 0 ∨ Y + h ≤ 0 then .ok (some fb)
    else
      let col0 := firstCol X
      let col1 := endCol X w
      if col1 ≤ col0 then .ok (some fb)
      else if Y % 8 = 0 ∧ h % 8 = 0 then some <$> showAligned X Y w h col0 col1 image fb
      else some <$> showPixels X Y w h col0 col1 image fb
  | fb, _ => .ok fb

/-! ### Pages -/

/-- `Sets fb t on`: the pixels that `on` has are set, and nothing else is changed. -/
structure Sets (fb t : Fb) (on : Int → Int → Bool) : Prop where
  pixel : ∀ x y, OnScreen x y → t.pixel x y = (fb.pixel x y || on x y)
  outside : ∀ i, Outside i → t i = fb i

namespace Sets

variable {fb t u : Fb} {on on' : Int → Int → Bool}

/-- Nothing is set. -/
theorem refl (fb : Fb) : Sets fb fb fun _ _ ↦ false :=
  ⟨fun _ _ _ ↦ (Bool.or_false _).symm, fun _ _ ↦ rfl⟩

/-- One drawing after another. -/
theorem trans (h : Sets fb t on) (h' : Sets t u on') : Sets fb u fun x y ↦ on x y || on' x y :=
  ⟨fun x y hon ↦ by rw [h'.pixel x y hon, h.pixel x y hon, Bool.or_assoc],
    fun i hi ↦ (h'.outside i hi).trans (h.outside i hi)⟩

/-- The set pixels up to equality on the screen. -/
theorem congr (h : Sets fb t on) (heq : ∀ x y, OnScreen x y → on x y = on' x y) :
    Sets fb t on' :=
  ⟨fun x y hon ↦ by rw [h.pixel x y hon, heq x y hon], h.outside⟩

/-- The pixels that are set and the bytes outside decide the framebuffer. -/
theorem unique (h : Sets fb t on) (h' : Sets fb u on) : t = u := by
  funext i
  by_cases hout : Outside i
  · rw [h.outside i hout, h'.outside i hout]
  · unfold Outside OLEDFB_FB_SIZE OLEDFB_W OLEDFB_H at hout
    apply BitVec.eq_of_getLsbD_eq
    intro k hk
    -- the bit is the pixel in column `i % 128` and row `i / 128 * 8 + k`
    have hon : OnScreen (i % 128) (i / 128 * 8 + k) := by
      unfold OnScreen OLEDFB_W OLEDFB_H
      omega
    have hpixel := (h.pixel _ _ hon).trans (h'.pixel _ _ hon).symm
    unfold Fb.pixel OLEDFB_W at hpixel
    have hrow : (i / 128 * 8 + k) / 8 * 128 + i % 128 = i := by omega
    have hbit : ((i / 128 * 8 + (k : Int)) % 8).toNat = k := by omega
    rw [hrow, hbit] at hpixel
    exact hpixel

end Sets

/-- A page of the bitmap goes into a page of the framebuffer. -/
theorem alignedPage_sets {col0 col1 p : Int} (hlo : 0 ≤ col0) (hle : col0 ≤ col1) (hhi : col1 ≤ 128)
    (hp : 0 ≤ p) (hp' : p < 8) (src : Int → BitVec 8) (fb : Fb) :
    ∃ t, forLoop 0 (col1 - col0)
        (fun i fb ↦ fb.modify (p * OLEDFB_W + col0 + i) (· ||| src i)) fb = .ok t ∧
      Sets fb t fun x y ↦ decide (y / 8 = p ∧ col0 ≤ x ∧ x < col1) &&
        (src (x - col0)).getLsbD (y % 8).toNat := by
  have hrun := columns_ok (fun i fb ↦ fb.modify (p * OLEDFB_W + col0 + i) (· ||| src i))
    (fun i b ↦ b ||| src i) (p * OLEDFB_W + col0) (show 0 ≤ col1 - col0 by omega)
    (fun i fb hi hi' ↦ by
      unfold OLEDFB_W
      exact modify_ok (by omega) (by omega) _) fb
  have hcolumns : (fun i ↦ if p * OLEDFB_W + col0 + 0 ≤ i ∧ i < p * OLEDFB_W + col0 + (col1 - col0)
        then fb i ||| src (i - (p * OLEDFB_W + col0)) else fb i) =
      fun i ↦ if p * OLEDFB_W + col0 ≤ i ∧ i < p * OLEDFB_W + col1
        then fb i ||| src (i - p * OLEDFB_W - col0) else fb i := by
    funext i
    rw [Int.add_zero, Int.sub_sub,
      show p * OLEDFB_W + col0 + (col1 - col0) = p * OLEDFB_W + col1 by omega]
  refine ⟨_, hrun, ?_, fun i hout ↦ ?_⟩
  · intro x y hon
    unfold OnScreen OLEDFB_W OLEDFB_H at hon
    rw [hcolumns, pixel_columns (fun x b ↦ b ||| src (x - col0)) fb hlo hhi hon.1 hon.2.1]
    by_cases hin : y / 8 = p ∧ col0 ≤ x ∧ x < col1
    · rw [if_pos hin, BitVec.getLsbD_or, decide_eq_true hin, Fb.pixel, hin.1]
      rfl
    · rw [if_neg hin, decide_eq_false hin, Bool.false_and, Bool.or_false]
  · unfold Outside OLEDFB_FB_SIZE OLEDFB_W OLEDFB_H at hout
    unfold OLEDFB_W
    exact if_neg (by omega)

/-- The pages of the bitmap that are left, from the offset `off` on, go to the page `p` and
below. -/
theorem alignedLoop_sets (w imgCol : Int) (image : Bitmap) {col0 col1 : Int} (hlo : 0 ≤ col0)
    (hle : col0 ≤ col1) (hhi : col1 ≤ 128) (n : Nat) (off p h : Int) (hp : 0 ≤ p)
    (hn : n = (8 - p).toNat) (hh : h % 8 = 0) (fb : Fb) :
    ∃ t, alignedLoop w col0 col1 imgCol image n off p h fb = .ok t ∧
      Sets fb t fun x y ↦ decide (col0 ≤ x ∧ x < col1 ∧ p * 8 ≤ y ∧ y < p * 8 + h) &&
        (image (off + ((y - p * 8) / 8 * w + (imgCol + (x - col0))))).getLsbD (y % 8).toNat := by
  induction n generalizing off p h fb with
  | zero =>
    refine ⟨fb, rfl, (Sets.refl fb).congr fun x y hon ↦ ?_⟩
    unfold OnScreen OLEDFB_W OLEDFB_H at hon
    rw [decide_eq_false (by omega), Bool.false_and]
  | succ n ih =>
    rw [alignedLoop]
    by_cases hleft : h > 0
    · obtain ⟨t, hpage, hset⟩ := alignedPage_sets hlo hle hhi hp (p := p) (by omega)
        (fun i ↦ image (off + (imgCol + i))) fb
      obtain ⟨u, hrest, hset'⟩ := ih (off + w) (p + 1) (h - 8) (by omega) (by omega) (by omega) t
      rw [if_pos ⟨by omega, hleft⟩]
      dsimp only
      rw [hpage]
      refine ⟨u, hrest, (hset.trans hset').congr fun x y hon ↦ ?_⟩
      unfold OnScreen OLEDFB_W OLEDFB_H at hon
      by_cases hhere : y / 8 = p
      · rw [decide_eq_false (p := _ ∧ _ ∧ (p + 1) * 8 ≤ y ∧ _) (by omega), Bool.false_and,
          Bool.or_false, show (y - p * 8) / 8 = 0 by omega, Int.zero_mul, Int.zero_add]
        congr 1
        apply decide_eq_decide.mpr
        omega
      · rw [decide_eq_false (p := y / 8 = p ∧ _) (by omega), Bool.false_and, Bool.false_or]
        by_cases hbelow : (p + 1) * 8 ≤ y
        · have hoff : off + w + ((y - (p + 1) * 8) / 8 * w + (imgCol + (x - col0))) =
              off + ((y - p * 8) / 8 * w + (imgCol + (x - col0))) := by
            rw [show (y - p * 8) / 8 = (y - (p + 1) * 8) / 8 + 1 by omega]
            ring
          rw [hoff]
          congr 1
          apply decide_eq_decide.mpr
          omega
        · rw [decide_eq_false (by omega), decide_eq_false (by omega), Bool.false_and,
            Bool.false_and]
    · rw [if_neg (by omega)]
      refine ⟨fb, rfl, (Sets.refl fb).congr fun x y hon ↦ ?_⟩
      rw [decide_eq_false (by omega), Bool.false_and]

/-! ### Rows -/

/-- A row of pixels of the bitmap goes to a row of the screen. -/
theorem showRow_sets {X Y w col0 col1 row : Int} (image : Bitmap) (hlo : 0 ≤ col0)
    (hle : col0 ≤ col1) (hhi : col1 ≤ 128) (hrow : 0 ≤ row) (hrow' : row < 64) (fb : Fb) :
    ∃ t, showRow X Y w col0 col1 image row fb = .ok t ∧
      Sets fb t fun x y ↦ decide (y = row ∧ col0 ≤ x ∧ x < col1) &&
        image.pixel w (x - X) (y - Y) := by
  have hbody : ∀ col fb, col0 ≤ col → col < col1 →
      (if hasBit (image ((row - Y) / 8 * w + (col0 - X) + (col - col0))) ((row - Y) % 8).toNat then
        Fb.modify fb (row / 8 * OLEDFB_W + col) (· ||| bit 8 (row % 8).toNat)
      else .ok fb) = .ok (Function.update fb (row / 8 * OLEDFB_W + col)
        (if image.pixel w (col - X) (row - Y) then
          fb (row / 8 * OLEDFB_W + col) ||| bit 8 (row % 8).toNat
        else fb (row / 8 * OLEDFB_W + col))) := by
    intro col fb hcol hcol'
    have hpixel : hasBit (image ((row - Y) / 8 * w + (col0 - X) + (col - col0)))
        ((row - Y) % 8).toNat = image.pixel w (col - X) (row - Y) := by
      rw [hasBit_eq (by omega), Bitmap.pixel, Int.add_assoc,
        show col0 - X + (col - col0) = col - X by omega]
    rw [hpixel]
    cases image.pixel w (col - X) (row - Y) with
    | true =>
      simp only [if_true]
      unfold OLEDFB_W
      exact modify_ok (by omega) (by omega) _
    | false => simp
  have hrun := columns_ok _
    (fun col b ↦ if image.pixel w (col - X) (row - Y) then b ||| bit 8 (row % 8).toNat else b)
    (row / 8 * OLEDFB_W) hle hbody fb
  refine ⟨_, hrun, ?_, fun i hout ↦ ?_⟩
  · intro x y hon
    unfold OnScreen OLEDFB_W OLEDFB_H at hon
    rw [pixel_columns (fun col b ↦ if image.pixel w (col - X) (row - Y)
      then b ||| bit 8 (row % 8).toNat else b) fb hlo hhi hon.1 hon.2.1]
    by_cases hin : y / 8 = row / 8 ∧ col0 ≤ x ∧ x < col1
    · have hbit : (row % 8).toNat = (y % 8).toNat ↔ y = row := by omega
      have hlt : (y % 8).toNat < 8 := by omega
      rw [if_pos hin, ← hin.1, Fb.pixel]
      by_cases hsame : y = row
      · subst hsame
        cases image.pixel w (x - X) (y - Y) with
        | true => simp [getLsbD_bit, hlt, hin.2]
        | false => simp
      · rw [decide_eq_false (by omega), Bool.false_and, Bool.or_false]
        split
        · simp [BitVec.getLsbD_or, getLsbD_bit, mt hbit.mp hsame]
        · rfl
    · have hne : ¬ (y = row ∧ col0 ≤ x ∧ x < col1) := by
        rintro ⟨rfl, hcols⟩
        exact hin ⟨rfl, hcols⟩
      rw [if_neg hin, decide_eq_false hne, Bool.false_and, Bool.or_false]
  · unfold Outside OLEDFB_FB_SIZE OLEDFB_W OLEDFB_H at hout
    unfold OLEDFB_W
    exact if_neg (by omega)

/-! ### Both branches -/

private theorem showAligned_sets {X Y w h col0 col1 : Int} (image : Bitmap) (hlo : 0 ≤ col0)
    (hle : col0 ≤ col1) (hhi : col1 ≤ 128) (hY : 0 ≤ Y) (hYpage : Y % 8 = 0) (hhpage : h % 8 = 0)
    (fb : Fb) :
    ∃ t, showAligned X Y w h col0 col1 image fb = .ok t ∧
      Sets fb t fun x y ↦ decide (col0 ≤ x ∧ x < col1 ∧ Y ≤ y ∧ y < Y + h) &&
        image.pixel w (x - X) (y - Y) := by
  obtain ⟨t, hrun, hset⟩ := alignedLoop_sets w (col0 - X) image hlo hle
    hhi (8 - Y / 8).toNat 0 (Y / 8) h (by omega) rfl hhpage fb
  refine ⟨t, hrun, hset.congr fun x y _ ↦ ?_⟩
  have hpage : Y / 8 * 8 = Y := by omega
  have hbit : y % 8 = (y - Y) % 8 := by omega
  have hcol : col0 - X + (x - col0) = x - X := by omega
  rw [hpage, Int.zero_add, Bitmap.pixel, hbit, hcol]

private theorem showPixels_sets {X Y w h col0 col1 : Int} (image : Bitmap) (hlo : 0 ≤ col0)
    (hle : col0 ≤ col1) (hhi : col1 ≤ 128) (hY : 0 ≤ Y) (fb : Fb) :
    ∃ t, showPixels X Y w h col0 col1 image fb = .ok t ∧
      Sets fb t fun x y ↦ decide (col0 ≤ x ∧ x < col1 ∧ Y ≤ y ∧ y < Y + h) &&
        image.pixel w (x - X) (y - Y) := by
  unfold showPixels
  set last := if Y + h < OLEDFB_H then Y + h else OLEDFB_H with hlast
  have hrows : last ≤ 64 ∧ ∀ y, y < 64 → (y < last ↔ y < Y + h) := by
    have hh : OLEDFB_H = 64 := rfl
    rw [hlast]
    refine ⟨by split <;> omega, fun y hy ↦ ?_⟩
    split <;> omega
  by_cases hnone : last ≤ Y
  · refine ⟨fb, forLoop_done hnone fb, (Sets.refl fb).congr fun x y hon ↦ ?_⟩
    unfold OnScreen OLEDFB_W OLEDFB_H at hon
    have hrow := hrows.2 y (by omega)
    rw [decide_eq_false (by omega), Bool.false_and]
  · obtain ⟨t, hrun, hset⟩ := forLoop_invariant (showRow X Y w col0 col1 image)
      (fun row t ↦ Sets fb t fun x y ↦ decide (col0 ≤ x ∧ x < col1 ∧ Y ≤ y ∧ y < row) &&
        image.pixel w (x - X) (y - Y))
      (show Y ≤ last by omega)
      (fun row s hrow hrow' hs ↦ by
        obtain ⟨t, hrun, hset⟩ := showRow_sets (X := X) (Y := Y) (w := w) image hlo hle hhi
          (show 0 ≤ row by omega) (by omega) s
        refine ⟨t, hrun, (hs.trans hset).congr fun x y _ ↦ ?_⟩
        rw [← Bool.and_or_distrib_right, ← Bool.decide_or]
        congr 1
        apply decide_eq_decide.mpr
        omega)
      fb ((Sets.refl fb).congr fun x y _ ↦ by rw [decide_eq_false (by omega), Bool.false_and])
    refine ⟨t, hrun, hset.congr fun x y hon ↦ ?_⟩
    unfold OnScreen OLEDFB_W OLEDFB_H at hon
    have hrow := hrows.2 y (by omega)
    congr 1
    apply decide_eq_decide.mpr
    omega

private theorem firstCol_nonneg (X : Int) : 0 ≤ firstCol X := by
  unfold firstCol
  split <;> omega

private theorem endCol_le (X w : Int) : endCol X w ≤ 128 := by
  unfold endCol OLEDFB_W
  split <;> omega

/-- Wherever both branches apply they give the same framebuffer. -/
theorem showAligned_eq {X Y w h : Int} (image : Bitmap) (hsome : firstCol X ≤ endCol X w)
    (hY : 0 ≤ Y) (hYpage : Y % 8 = 0) (hhpage : h % 8 = 0) (fb : Fb) :
    showAligned X Y w h (firstCol X) (endCol X w) image fb =
      showPixels X Y w h (firstCol X) (endCol X w) image fb := by
  have hlo := firstCol_nonneg X
  have hhi := endCol_le X w
  obtain ⟨t, hrun, hset⟩ :=
    showAligned_sets (X := X) (w := w) image hlo hsome hhi hY hYpage hhpage fb
  obtain ⟨u, hrun', hset'⟩ := showPixels_sets (X := X) (w := w) (h := h) image hlo hsome hhi hY fb
  rw [hrun, hrun', hset.unique hset']

private theorem showImage_sets (fb : Fb) (X Y w h : Int) (image : Bitmap) (hY : 0 ≤ Y) :
    ∃ t, oledShowImage (some fb) X Y w h (some image) = .ok (some t) ∧
      Sets fb t fun x y ↦ decide (X ≤ x ∧ x < X + w ∧ Y ≤ y ∧ y < Y + h) &&
        image.pixel w (x - X) (y - Y) := by
  have hempty : w ≤ 0 ∨ h ≤ 0 ∨ OLEDFB_W ≤ X ∨ OLEDFB_H ≤ Y ∨ X + w ≤ 0 ∨ Y + h ≤ 0 →
      Sets fb fb fun x y ↦ decide (X ≤ x ∧ x < X + w ∧ Y ≤ y ∧ y < Y + h) &&
        image.pixel w (x - X) (y - Y) := by
    refine fun hnone ↦ (Sets.refl fb).congr fun x y hon ↦ ?_
    unfold OnScreen at hon
    rw [decide_eq_false (by omega), Bool.false_and]
  unfold oledShowImage
  dsimp only
  by_cases hsize : w ≤ 0 ∨ h ≤ 0
  · rw [if_pos hsize]
    exact ⟨fb, rfl, hempty (by omega)⟩
  rw [if_neg hsize]
  by_cases hoff : X ≥ OLEDFB_W ∨ Y ≥ OLEDFB_H ∨ X + w ≤ 0 ∨ Y + h ≤ 0
  · rw [if_pos hoff]
    exact ⟨fb, rfl, hempty (by omega)⟩
  obtain ⟨hlo, hsome, hhi, hcolumns⟩ := clip_columns (show firstCol X = _ from rfl)
    (show endCol X w = _ from rfl) (by omega) (by omega) (by omega)
  rw [if_neg hoff, if_neg (by omega)]
  have hclip : ∀ x y, OnScreen x y →
      (decide (firstCol X ≤ x ∧ x < endCol X w ∧ Y ≤ y ∧ y < Y + h) &&
        image.pixel w (x - X) (y - Y)) =
      (decide (X ≤ x ∧ x < X + w ∧ Y ≤ y ∧ y < Y + h) && image.pixel w (x - X) (y - Y)) := by
    intro x y hon
    unfold OnScreen at hon
    have hcolumn := hcolumns x hon.1 hon.2.1
    congr 1
    apply decide_eq_decide.mpr
    omega
  by_cases haligned : Y % 8 = 0 ∧ h % 8 = 0
  · obtain ⟨t, hrun, hset⟩ := showAligned_sets (X := X) (w := w) image hlo hsome.le hhi hY
      haligned.1 haligned.2 fb
    rw [if_pos haligned, hrun]
    exact ⟨t, rfl, hset.congr hclip⟩
  · obtain ⟨t, hrun, hset⟩ :=
      showPixels_sets (X := X) (w := w) (h := h) image hlo hsome.le hhi hY fb
    rw [if_neg haligned, hrun]
    exact ⟨t, rfl, hset.congr hclip⟩

/-- `OLED_ShowImage` sets the pixels of the bitmap that are on the screen, and nothing else is
changed. The two branches give the same framebuffer wherever both apply. -/
theorem showImage_exact (fb : Fb) (X Y w h : Int) (image : Bitmap) (hY : 0 ≤ Y) :
    (∃ t, oledShowImage (some fb) X Y w h (some image) = .ok (some t) ∧
      (∀ x y, OnScreen x y → t.pixel x y = (fb.pixel x y ||
        decide (X ≤ x ∧ x < X + w ∧ Y ≤ y ∧ y < Y + h) && image.pixel w (x - X) (y - Y))) ∧
      ∀ i, Outside i → t i = fb i) ∧
    (firstCol X < endCol X w → Y % 8 = 0 → h % 8 = 0 →
      showAligned X Y w h (firstCol X) (endCol X w) image fb =
        showPixels X Y w h (firstCol X) (endCol X w) image fb) := by
  obtain ⟨t, hrun, hset⟩ := showImage_sets fb X Y w h image hY
  exact ⟨⟨t, hrun, hset.pixel, hset.outside⟩, fun hsome hYpage hhpage ↦
    showAligned_eq image hsome.le hY hYpage hhpage fb⟩

/-- A bitmap of one page that hangs over the left edge of the screen. -/
theorem showImage_exact_small :
    ∃ t, oledShowImage (some fun _ ↦ 0) (-1) 8 2 8 (some fun i ↦ BitVec.ofInt 8 i) =
      .ok (some t) ∧ ∀ x y, OnScreen x y → t.pixel x y = (Fb.pixel (fun _ ↦ 0) x y ||
        decide (-1 ≤ x ∧ x < -1 + 2 ∧ 8 ≤ y ∧ y < 8 + 8) &&
          Bitmap.pixel (fun i ↦ BitVec.ofInt 8 i) 2 (x - -1) (y - 8)) := by
  obtain ⟨t, hrun, hpixel, -⟩ :=
    (showImage_exact (fun _ ↦ 0) (-1) 8 2 8 (fun i ↦ BitVec.ofInt 8 i) (by decide)).1
  exact ⟨t, hrun, hpixel⟩

end Xv6K210.Oled
