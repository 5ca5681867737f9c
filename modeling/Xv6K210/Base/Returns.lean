import Xv6K210.Base.Prog

/-!
# Routines that return

Library `Base`. `Returns x s Q` says that a run of `x` from `s` returns, and ends with `Q`. It is
computed along the text of a routine like `Ensures`, and follows from it for a routine that is
known not to halt.
-/

namespace Xv6K210.Base.Prog

variable {σ α β : Type}

/-- `x` returns from `s`, and its value and the new state satisfy `post`. -/
def Returns (x : Prog σ α) (s : σ) (post : α → σ → Prop) : Prop :=
  ∃ a t, x s = .ok (a, t) ∧ post a t

variable {x y : Prog σ α} {s : σ} {post post' : α → σ → Prop}

/-- `pure` returns. -/
theorem returns_pure {a : α} : Returns (pure a) s post ↔ post a s := by
  constructor
  · rintro ⟨b, t, heq, h⟩
    cases heq
    exact h
  · exact fun h ↦ ⟨a, s, rfl, h⟩

/-- A sequence returns when its parts do. -/
theorem returns_bind {f : α → Prog σ β} {post : β → σ → Prop} :
    Returns (x >>= f) s post ↔ Returns x s fun a t ↦ Returns (f a) t post := by
  constructor
  · rintro ⟨b, u, heq, h⟩
    change (x s >>= fun p ↦ f p.1 p.2) = _ at heq
    cases hx : x s with
    | error e =>
      rw [hx] at heq
      cases heq
    | ok p =>
      rw [hx] at heq
      exact ⟨p.1, p.2, hx, b, u, heq, h⟩
  · rintro ⟨a, t, hx, b, u, hf, h⟩
    refine ⟨b, u, ?_, h⟩
    change (x s >>= fun p ↦ f p.1 p.2) = _
    rw [hx]
    exact hf

/-- `get` returns the state. -/
theorem returns_get {post : σ → σ → Prop} : Returns (get : Prog σ σ) s post ↔ post s s := by
  constructor
  · rintro ⟨b, t, heq, h⟩
    cases heq
    exact h
  · exact fun h ↦ ⟨s, s, rfl, h⟩

/-- `modify` returns. -/
theorem returns_modify {f : σ → σ} {post : PUnit → σ → Prop} :
    Returns (modify f : Prog σ PUnit) s post ↔ post ⟨⟩ (f s) := by
  constructor
  · rintro ⟨b, u, heq, h⟩
    cases heq
    exact h
  · exact fun h ↦ ⟨⟨⟩, f s, rfl, h⟩

/-- The postcondition is weakened. -/
theorem Returns.mono (h : Returns x s post) (himp : ∀ a t, post a t → post' a t) :
    Returns x s post' := by
  obtain ⟨a, t, heq, ha⟩ := h
  exact ⟨a, t, heq, himp a t ha⟩

/-- A run has one outcome. -/
theorem Returns.ensures (h : Returns x s post) : Ensures x s post := by
  obtain ⟨a, t, heq, ha⟩ := h
  constructor
  intro b u heq'
  rw [heq] at heq'
  cases heq'
  exact ha

end Xv6K210.Base.Prog
