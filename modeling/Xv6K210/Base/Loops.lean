import Mathlib.Tactic.Common

/-!
# Counting loops

Library `Base`. The loop `for (i = lo; i < hi; i++)` over the integers, with a body that may fail.
What each turn carries over to the next holds at the end.
-/

namespace Xv6K210.Base

variable {ε σ : Type} {body : Int → σ → Except ε σ}

/-- Some turns of a counting loop, from `i` on. -/
def turns (body : Int → σ → Except ε σ) : Nat → Int → σ → Except ε σ
  | 0, _, s => .ok s
  | n + 1, i, s => do
    let s ← body i s
    turns body n (i + 1) s

/-- `for (i = lo; i < hi; i++)`. -/
def forLoop (lo hi : Int) (body : Int → σ → Except ε σ) (s : σ) : Except ε σ :=
  turns body (hi - lo).toNat lo s

/-- A loop over an empty range does nothing. -/
theorem forLoop_done {lo hi : Int} (h : hi ≤ lo) (s : σ) : forLoop lo hi body s = .ok s := by
  rw [forLoop, Int.toNat_of_nonpos (by omega)]
  rfl

private theorem forLoop_next {lo hi : Int} (h : lo < hi) (s : σ) :
    forLoop lo hi body s = body lo s >>= forLoop (lo + 1) hi body := by
  have hcount : (hi - lo).toNat = (hi - (lo + 1)).toNat + 1 := by omega
  rw [forLoop, hcount]
  rfl

/-- The first turn fails, and so does the loop. -/
theorem forLoop_error {lo hi : Int} (h : lo < hi) {s : σ} {e : ε} (he : body lo s = .error e) :
    forLoop lo hi body s = .error e := by
  rw [forLoop_next h, he]
  rfl

/-- An invariant that each turn carries from `i` to `i + 1` holds at the end of the loop. -/
theorem forLoop_invariant (body : Int → σ → Except ε σ) (inv : Int → σ → Prop) {lo hi : Int}
    (hle : lo ≤ hi)
    (hstep : ∀ i s, lo ≤ i → i < hi → inv i s → ∃ t, body i s = .ok t ∧ inv (i + 1) t)
    (s : σ) (hs : inv lo s) : ∃ t, forLoop lo hi body s = .ok t ∧ inv hi t := by
  -- the induction is on the number of turns that are left
  obtain ⟨n, hn⟩ : ∃ n : Nat, hi = lo + n := ⟨(hi - lo).toNat, by omega⟩
  induction n generalizing lo s with
  | zero =>
    obtain rfl : hi = lo := by omega
    exact ⟨s, forLoop_done (Int.le_refl _) s, hs⟩
  | succ n ih =>
    obtain ⟨t, hbody, ht⟩ := hstep lo s (Int.le_refl _) (by omega) hs
    rw [forLoop_next (by omega), hbody]
    exact ih (by omega) (fun i s hi hlt ↦ hstep i s (by omega) hlt) t ht (by omega)

end Xv6K210.Base
