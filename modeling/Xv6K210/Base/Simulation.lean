import Mathlib.Data.List.ReduceOption
import Xv6K210.Base.Runs

/-!
# Runs that refine runs

Library `Base`. The labels of the steps are events that can be seen, or nothing. When every step of
one system is a step of another with the same label, or cannot be seen and leaves the state that
stands for it, the runs of the first show what runs of the second show.
-/

namespace Xv6K210.Base.Runs

variable {σ τ ε : Type} {step : σ → Option ε → σ → Prop} {step' : τ → Option ε → τ → Prop}

/-- A step for each step, or none for one that shows nothing. -/
theorem refines (abs : σ → τ) (inv : σ → Prop)
    (hstep : ∀ s e t, inv s → step s e t →
      inv t ∧ (e = none ∧ abs t = abs s ∨ step' (abs s) e (abs t)))
    {s t : σ} {es : List (Option ε)} (h : Runs step s es t) (hs : inv s) :
    ∃ es', Runs step' (abs s) es' (abs t) ∧ es'.reduceOption = es.reduceOption := by
  induction h with
  | nil s => exact ⟨[], .nil _, rfl⟩
  | @cons s t u e es head _ ih =>
    obtain ⟨ht, hsim⟩ := hstep _ _ _ hs head
    obtain ⟨es', hrun, hes⟩ := ih ht
    rcases hsim with ⟨rfl, habs⟩ | hstep'
    · refine ⟨es', by rwa [habs] at hrun, ?_⟩
      rw [hes, List.reduceOption_cons_of_none]
    · refine ⟨e :: es', .cons hstep' hrun, ?_⟩
      cases e with
      | none => rw [List.reduceOption_cons_of_none, List.reduceOption_cons_of_none, hes]
      | some e => rw [List.reduceOption_cons_of_some, List.reduceOption_cons_of_some, hes]

end Xv6K210.Base.Runs
