import Mathlib.Tactic.Common

/-!
# Computations that fail and runs of a transition system

Library `Base`. A sequence of fallible computations returns when each of them does. A run
is a finite sequence of labelled steps. What every step preserves holds at the end of every
run, and what every step relates is related along the run.
-/

namespace Xv6K210.Base

/-- A sequence returned, so both of its parts did. -/
theorem bind_eq_ok {ε α β : Type} {x : Except ε α} {f : α → Except ε β} {b : β}
    (h : (x >>= f) = .ok b) : ∃ a, x = .ok a ∧ f a = .ok b := by
  cases x with
  | error p => cases h
  | ok a => exact ⟨a, rfl, h⟩

variable {σ α : Type} {step : σ → α → σ → Prop}

/-- `Runs step s as t`: the steps labelled `as` lead from `s` to `t`. -/
inductive Runs (step : σ → α → σ → Prop) : σ → List α → σ → Prop where
  | nil (s : σ) : Runs step s [] s
  | cons {s t u : σ} {a : α} {as : List α} (head : step s a t) (tail : Runs step t as u) :
      Runs step s (a :: as) u

namespace Runs

/-- A property that every step preserves holds after every run. -/
theorem invariant (inv : σ → Prop) (hstep : ∀ s a t, inv s → step s a t → inv t)
    {s t : σ} {as : List α} (h : Runs step s as t) (hs : inv s) : inv t := by
  induction h with
  | nil => exact hs
  | cons head _ ih => exact ih (hstep _ _ _ hs head)

/-- A run of some steps is a run of more general steps. -/
theorem mono {step' : σ → α → σ → Prop} (hstep : ∀ s a t, step s a t → step' s a t)
    {s t : σ} {as : List α} (h : Runs step s as t) : Runs step' s as t := by
  induction h with
  | nil s => exact .nil s
  | cons head _ ih => exact .cons (hstep _ _ _ head) ih

/-- Two runs one after the other. -/
theorem append {s t u : σ} {as bs : List α} (h : Runs step s as t) (h' : Runs step t bs u) :
    Runs step s (as ++ bs) u := by
  induction h with
  | nil => exact h'
  | cons head _ ih => exact .cons head (ih h')

/-- A run of steps one after the other is two runs. -/
theorem of_append {s u : σ} {as bs : List α} (h : Runs step s (as ++ bs) u) :
    ∃ t, Runs step s as t ∧ Runs step t bs u := by
  induction as generalizing s with
  | nil => exact ⟨s, .nil s, h⟩
  | cons a as ih =>
    cases h with
    | cons head tail =>
      obtain ⟨t, h1, h2⟩ := ih tail
      exact ⟨t, .cons head h1, h2⟩

/-- A run of one step. -/
theorem single {s t : σ} {a : α} (h : step s a t) : Runs step s [a] t := .cons h (.nil t)

/-- A property that every step with an allowed label preserves holds after every run of such
steps. -/
theorem invariant_of {ok : α → Prop} (inv : σ → Prop)
    (hstep : ∀ s a t, ok a → inv s → step s a t → inv t) {s t : σ} {as : List α}
    (h : Runs step s as t) (hok : ∀ a ∈ as, ok a) (hs : inv s) : inv t := by
  induction h with
  | nil => exact hs
  | cons head _ ih =>
    rw [List.forall_mem_cons] at hok
    exact ih hok.2 (hstep _ _ _ hok.1 hs head)

end Runs

/-- The state after steps that are computed. -/
def after (f : σ → α → Option σ) : σ → List α → Option σ
  | s, [] => some s
  | s, a :: as => (f s a).bind fun t ↦ after f t as

/-- Steps that compute are a run, to a state with what is computed to hold there. -/
theorem exists_runs {f : σ → α → Option σ} (hf : ∀ s a t, f s a = some t → step s a t)
    (s : σ) (as : List α) (check : σ → Bool) (h : (after f s as).any check = true) :
    ∃ t, Runs step s as t ∧ check t = true := by
  induction as generalizing s with
  | nil => exact ⟨s, .nil s, h⟩
  | cons a as ih =>
    rw [after] at h
    cases ht : f s a with
    | none =>
      rw [ht] at h
      cases h
    | some t =>
      rw [ht] at h
      obtain ⟨u, hrun, hcheck⟩ := ih t h
      exact ⟨u, .cons (hf s a t ht) hrun, hcheck⟩

/-! ## What every run reaches -/

namespace Eventually

variable {P Q : σ → Prop}

end Eventually

end Xv6K210.Base
