import Mathlib.Tactic.Common

/-!
# Routines that change a state and may halt

Library `Base`. A routine starts in a state and either halts with a message or returns a
value in a new state. `Ensures x s Q` says that a run of `x` from `s` that returns ends with
`Q`; it is computed along the text of a routine, and a called routine is replaced by what it
ensures. Loops have invariant rules. `Keeps` is for an invariant that holds throughout: it also
says with which messages the routine may halt.
-/

namespace Xv6K210.Base

/-- A routine on states of type `σ`. -/
abbrev Prog (σ α : Type) := StateT σ (Except String) α

namespace Prog

variable {σ α β : Type}

/-- The routine that halts. -/
def halt (msg : String) : Prog σ α := fun _ ↦ .error msg

/-- If `x` returns from `s`, its value and the new state satisfy `post`. -/
structure Ensures (x : Prog σ α) (s : σ) (post : α → σ → Prop) : Prop where
  of_ok : ∀ a t, x s = .ok (a, t) → post a t

/-- What `pure` ensures. -/
@[simp] theorem ensures_pure {a : α} {s : σ} {post : α → σ → Prop} :
    Ensures (pure a) s post ↔ post a s := by
  constructor
  · intro h
    exact h.of_ok a s rfl
  · intro h
    constructor
    intro b t heq
    cases heq
    exact h

/-- What a sequence ensures. -/
@[simp] theorem ensures_bind {x : Prog σ α} {f : α → Prog σ β} {s : σ} {post : β → σ → Prop} :
    Ensures (x >>= f) s post ↔ Ensures x s fun a t ↦ Ensures (f a) t post := by
  constructor
  · intro h
    constructor
    intro a t hx
    constructor
    intro b u hf
    apply h.of_ok b u
    change (x s >>= fun p ↦ f p.1 p.2) = _
    rw [hx]
    exact hf
  · intro h
    constructor
    intro b u hxf
    change (x s >>= fun p ↦ f p.1 p.2) = _ at hxf
    cases hx : x s with
    | error e =>
      rw [hx] at hxf
      cases hxf
    | ok p =>
      rw [hx] at hxf
      exact (h.of_ok p.1 p.2 hx).of_ok b u hxf

/-- What `get` ensures. -/
@[simp] theorem ensures_get {s : σ} {post : σ → σ → Prop} :
    Ensures (get : Prog σ σ) s post ↔ post s s := by
  constructor
  · intro h
    exact h.of_ok s s rfl
  · intro h
    constructor
    intro a t heq
    cases heq
    exact h

/-- What `set` ensures. -/
@[simp] theorem ensures_set {s t : σ} {post : PUnit → σ → Prop} :
    Ensures (set t : Prog σ PUnit) s post ↔ post ⟨⟩ t := by
  constructor
  · intro h
    exact h.of_ok ⟨⟩ t rfl
  · intro h
    constructor
    intro a u heq
    cases heq
    exact h

/-- What `modify` ensures. -/
@[simp] theorem ensures_modify {f : σ → σ} {s : σ} {post : PUnit → σ → Prop} :
    Ensures (modify f : Prog σ PUnit) s post ↔ post ⟨⟩ (f s) := by
  constructor
  · intro h
    exact h.of_ok ⟨⟩ (f s) rfl
  · intro h
    constructor
    intro a u heq
    cases heq
    exact h

/-- A routine that halts ensures anything. -/
@[simp] theorem ensures_halt {msg : String} {s : σ} {post : α → σ → Prop} :
    Ensures (halt msg) s post := by
  constructor
  intro a t heq
  cases heq

/-- What a conditional ensures. -/
@[simp] theorem ensures_ite {c : Prop} [Decidable c] {x y : Prog σ α} {s : σ}
    {post : α → σ → Prop} :
    Ensures (if c then x else y) s post ↔ (c → Ensures x s post) ∧ (¬ c → Ensures y s post) := by
  split
  · simp [*]
  · simp [*]

/-- Run a routine on a condition. -/
def doIf (c : Prop) [Decidable c] (x : Prog σ Unit) : Prog σ Unit := if c then x else pure ()

/-- What a conditional without `else` ensures. -/
@[simp] theorem ensures_doIf {c : Prop} [Decidable c] {x : Prog σ Unit} {s : σ}
    {post : Unit → σ → Prop} :
    Ensures (doIf c x) s post ↔ (c → Ensures x s post) ∧ (¬ c → post () s) := by
  unfold doIf
  rw [ensures_ite, ensures_pure]

/-- A weaker postcondition. -/
theorem Ensures.mono {x : Prog σ α} {s : σ} {post post' : α → σ → Prop} (h : Ensures x s post)
    (himp : ∀ a t, post a t → post' a t) : Ensures x s post' := by
  constructor
  intro a t heq
  exact himp a t (h.of_ok a t heq)

/-- A sequence: the second routine starts from what the first one ensures. -/
theorem Ensures.bind {x : Prog σ α} {f : α → Prog σ β} {s : σ} {mid : α → σ → Prop}
    {post : β → σ → Prop} (h : Ensures x s mid)
    (hf : ∀ a t, mid a t → Ensures (f a) t post) : Ensures (x >>= f) s post :=
  ensures_bind.mpr (h.mono hf)

/-- What the first routine does is not needed. -/
theorem ensures_bind_of {x : Prog σ α} {f : α → Prog σ β} {s : σ} {post : β → σ → Prop}
    (h : ∀ a t, Ensures (f a) t post) : Ensures (x >>= f) s post :=
  ensures_bind.mpr ⟨fun a t _ ↦ h a t⟩

/-- Both of two postconditions hold. -/
theorem Ensures.and {x : Prog σ α} {s : σ} {post post' : α → σ → Prop} (h : Ensures x s post)
    (h' : Ensures x s post') : Ensures x s fun a t ↦ post a t ∧ post' a t := by
  constructor
  intro a t heq
  exact ⟨h.of_ok a t heq, h'.of_ok a t heq⟩

/-- The routine returns a value and a state that pass a check. -/
def returns (x : Prog σ α) (s : σ) (check : α → σ → Bool) : Bool :=
  match x s with
  | .ok (a, t) => check a t
  | .error _ => false

/-- A routine that computes. -/
theorem exists_of_returns {x : Prog σ α} {s : σ} {check : α → σ → Bool}
    (h : returns x s check = true) : ∃ a t, x s = .ok (a, t) ∧ check a t = true := by
  unfold returns at h
  cases hx : x s with
  | error msg =>
    rw [hx] at h
    cases h
  | ok p =>
    rw [hx] at h
    exact ⟨p.1, p.2, rfl, h⟩

/-! ### Loops -/

/-- Run `f` on the elements of a list in turn. -/
def forEach (f : α → Prog σ Unit) : List α → Prog σ Unit
  | [] => pure ()
  | x :: xs => do
    f x
    forEach f xs

/-- Run `f` on the elements of a list in turn until it answers no; the element it stopped at. -/
def stopAt (f : α → Prog σ Bool) : List α → Prog σ (Option α)
  | [] => pure none
  | x :: xs => do
    if ← f x then stopAt f xs else pure (some x)

/-- The invariant `inv` speaks of the elements that are left. -/
theorem ensures_forEach {f : α → Prog σ Unit} (inv : List α → σ → Prop)
    (hstep : ∀ x xs s, inv (x :: xs) s → Ensures (f x) s fun _ t ↦ inv xs t)
    {xs : List α} {s : σ} (h : inv xs s) : Ensures (forEach f xs) s fun _ t ↦ inv [] t := by
  induction xs generalizing s with
  | nil => simpa [forEach] using h
  | cons x xs ih =>
    rw [forEach, ensures_bind]
    apply (hstep x xs s h).mono
    intro _ t ht
    exact ih ht

/-- As for `forEach`; where the loop stops at an element, `out` holds. -/
theorem ensures_stopAt {f : α → Prog σ Bool} (inv : List α → σ → Prop)
    (out : α → List α → σ → Prop)
    (hstep : ∀ x xs s, inv (x :: xs) s →
      Ensures (f x) s fun b t ↦ if b then inv xs t else out x xs t)
    {xs : List α} {s : σ} (h : inv xs s) :
    Ensures (stopAt f xs) s fun r t ↦
      match r with
      | none => inv [] t
      | some x => ∃ ys, (∃ zs, xs = zs ++ x :: ys) ∧ out x ys t := by
  induction xs generalizing s with
  | nil => simpa [stopAt] using h
  | cons x xs ih =>
    rw [stopAt, ensures_bind]
    apply (hstep x xs s h).mono
    intro b t ht
    cases b with
    | true =>
      apply (ih ht).mono
      intro r u hr
      cases r with
      | none => exact hr
      | some y =>
        obtain ⟨ys, ⟨zs, rfl⟩, hout⟩ := hr
        exact ⟨ys, ⟨x :: zs, rfl⟩, hout⟩
    | false => exact ensures_pure.mpr ⟨xs, ⟨[], rfl⟩, ht⟩

/-! ### Invariants that hold throughout -/

/-- From a state with `inv` a run of `x` returns a value in `out` and a state with `inv`, or halts
with a message in `ok`. -/
structure Keeps (ok : String → Prop) (inv : σ → Prop) (x : Prog σ α) (out : α → Prop) : Prop where
  of_ok : ∀ s a t, inv s → x s = .ok (a, t) → inv t ∧ out a
  of_error : ∀ s msg, inv s → x s = .error msg → ok msg

section

variable {ok : String → Prop} {inv : σ → Prop}

/-- `pure` keeps every invariant. -/
theorem keeps_pure {a : α} {out : α → Prop} (h : out a) : Keeps ok inv (pure a) out := by
  constructor
  · intro s b t hs heq
    cases heq
    exact ⟨hs, h⟩
  · intro s msg _ heq
    cases heq

/-- A sequence keeps what its parts keep. -/
theorem keeps_bind {x : Prog σ α} {f : α → Prog σ β} {mid : α → Prop} {out : β → Prop}
    (hx : Keeps ok inv x mid) (hf : ∀ a, mid a → Keeps ok inv (f a) out) :
    Keeps ok inv (x >>= f) out := by
  constructor
  · intro s b u hs heq
    change (x s >>= fun p ↦ f p.1 p.2) = _ at heq
    cases hxs : x s with
    | error e =>
      rw [hxs] at heq
      cases heq
    | ok p =>
      rw [hxs] at heq
      obtain ⟨ht, ha⟩ := hx.of_ok s p.1 p.2 hs hxs
      exact (hf p.1 ha).of_ok p.2 b u ht heq
  · intro s msg hs heq
    change (x s >>= fun p ↦ f p.1 p.2) = _ at heq
    cases hxs : x s with
    | error e =>
      rw [hxs] at heq
      cases heq
      exact hx.of_error s _ hs hxs
    | ok p =>
      rw [hxs] at heq
      obtain ⟨ht, ha⟩ := hx.of_ok s p.1 p.2 hs hxs
      exact (hf p.1 ha).of_error p.2 msg ht heq

/-- The state is read: it has the invariant. -/
theorem keeps_get_bind {f : σ → Prog σ β} {out : β → Prop}
    (hf : ∀ s, inv s → Keeps ok inv (f s) out) : Keeps ok inv (get >>= f) out := by
  constructor
  · intro s b u hs heq
    exact (hf s hs).of_ok s b u hs heq
  · intro s msg hs heq
    exact (hf s hs).of_error s msg hs heq

/-- `Keeps`, from one state. -/
structure KeepsAt (ok : String → Prop) (inv : σ → Prop) (x : Prog σ α) (s : σ) (out : α → Prop) :
    Prop where
  of_ok : ∀ a t, x s = .ok (a, t) → inv t ∧ out a
  of_error : ∀ msg, x s = .error msg → ok msg

/-- What is kept from every state is kept from one. -/
theorem Keeps.at {x : Prog σ α} {out : α → Prop} (h : Keeps ok inv x out) {s : σ} (hs : inv s) :
    KeepsAt ok inv x s out :=
  ⟨fun a t heq ↦ h.of_ok s a t hs heq, fun msg heq ↦ h.of_error s msg hs heq⟩

/-- The value is not needed. -/
theorem KeepsAt.drop {x : Prog σ α} {s : σ} {out : α → Prop} (h : KeepsAt ok inv x s out) :
    KeepsAt ok inv (x >>= fun _ ↦ pure ()) s fun _ ↦ True := by
  constructor
  · intro u t heq
    change (x s >>= fun p ↦ pure ((), p.2)) = _ at heq
    cases hxs : x s with
    | error e =>
      rw [hxs] at heq
      cases heq
    | ok p =>
      rw [hxs] at heq
      cases heq
      exact ⟨(h.of_ok p.1 p.2 hxs).1, trivial⟩
  · intro msg heq
    change (x s >>= fun p ↦ pure ((), p.2)) = _ at heq
    cases hxs : x s with
    | error e =>
      rw [hxs] at heq
      cases heq
      exact h.of_error _ hxs
    | ok p =>
      rw [hxs] at heq
      cases heq

/-- What else is known of the state after `x` may be used. -/
theorem keepsAt_bind {x : Prog σ α} {f : α → Prog σ β} {s : σ} {mid : α → Prop}
    {post : α → σ → Prop} {out : β → Prop} (hx : Keeps ok inv x mid) (hs : inv s)
    (hpost : Ensures x s post)
    (hf : ∀ a t, inv t → mid a → post a t → KeepsAt ok inv (f a) t out) :
    KeepsAt ok inv (x >>= f) s out := by
  constructor
  · intro b u heq
    change (x s >>= fun p ↦ f p.1 p.2) = _ at heq
    cases hxs : x s with
    | error e =>
      rw [hxs] at heq
      cases heq
    | ok p =>
      rw [hxs] at heq
      obtain ⟨ht, ha⟩ := hx.of_ok s p.1 p.2 hs hxs
      exact (hf p.1 p.2 ht ha (hpost.of_ok p.1 p.2 hxs)).of_ok b u heq
  · intro msg heq
    change (x s >>= fun p ↦ f p.1 p.2) = _ at heq
    cases hxs : x s with
    | error e =>
      rw [hxs] at heq
      cases heq
      exact hx.of_error s _ hs hxs
    | ok p =>
      rw [hxs] at heq
      obtain ⟨ht, ha⟩ := hx.of_ok s p.1 p.2 hs hxs
      exact (hf p.1 p.2 ht ha (hpost.of_ok p.1 p.2 hxs)).of_error msg heq

/-- The state that was read is the one before. -/
theorem keepsAt_get_bind {f : σ → Prog σ β} {s : σ} {out : β → Prop}
    (hf : KeepsAt ok inv (f s) s out) : KeepsAt ok inv (get >>= f) s out :=
  ⟨fun b u heq ↦ hf.of_ok b u heq, fun msg heq ↦ hf.of_error msg heq⟩

/-- A conditional from one state. -/
theorem keepsAt_ite {c : Prop} [Decidable c] {x y : Prog σ α} {s : σ} {out : α → Prop}
    (hx : c → KeepsAt ok inv x s out) (hy : ¬ c → KeepsAt ok inv y s out) :
    KeepsAt ok inv (if c then x else y) s out := by
  split
  · exact hx ‹c›
  · exact hy ‹¬ c›

/-- `modify` keeps what its function keeps. -/
theorem keeps_modify {f : σ → σ} (h : ∀ s, inv s → inv (f s)) :
    Keeps ok inv (modify f : Prog σ PUnit) fun _ ↦ True := by
  constructor
  · intro s a t hs heq
    cases heq
    exact ⟨h s hs, trivial⟩
  · intro s msg _ heq
    cases heq

/-- `set` keeps what the new state satisfies. -/
theorem keeps_set {t : σ} (h : inv t) : Keeps ok inv (set t : Prog σ PUnit) fun _ ↦ True := by
  constructor
  · intro s a u _ heq
    cases heq
    exact ⟨h, trivial⟩
  · intro s msg _ heq
    cases heq

/-- A halt with an allowed message. -/
theorem keeps_halt {msg : String} {out : α → Prop} (h : ok msg) :
    Keeps ok inv (halt msg : Prog σ α) out := by
  constructor
  · intro s a t _ heq
    cases heq
  · intro s msg' _ heq
    cases heq
    exact h

/-- A conditional keeps what its branches keep. -/
theorem keeps_ite {c : Prop} [Decidable c] {x y : Prog σ α} {out : α → Prop}
    (hx : c → Keeps ok inv x out) (hy : ¬ c → Keeps ok inv y out) :
    Keeps ok inv (if c then x else y) out := by
  split
  · exact hx ‹c›
  · exact hy ‹¬ c›

/-- An early return of a value that is allowed. -/
theorem keeps_exit {c : Prop} [Decidable c] {a : α} {y : Prog σ α} {out : α → Prop} (ha : out a)
    (hy : ¬ c → Keeps ok inv y out) : Keeps ok inv (if c then pure a else y) out :=
  keeps_ite (fun _ ↦ keeps_pure ha) hy

/-- A conditional without `else`. -/
theorem keeps_doIf {c : Prop} [Decidable c] {x : Prog σ Unit}
    (hx : c → Keeps ok inv x fun _ ↦ True) : Keeps ok inv (doIf c x) fun _ ↦ True :=
  keeps_ite hx fun _ ↦ keeps_pure trivial

/-- A loop keeps what its body keeps. -/
theorem keeps_forEach {f : α → Prog σ Unit} {xs : List α}
    (h : ∀ x ∈ xs, Keeps ok inv (f x) fun _ ↦ True) :
    Keeps ok inv (forEach f xs) fun _ ↦ True := by
  induction xs with
  | nil => exact keeps_pure trivial
  | cons x xs ih =>
    apply keeps_bind (h x List.mem_cons_self)
    intro _ _
    exact ih fun y hy ↦ h y (List.mem_cons_of_mem x hy)

/-- A loop that may stop keeps what its body keeps. -/
theorem keeps_stopAt {f : α → Prog σ Bool} {xs : List α}
    (h : ∀ x ∈ xs, Keeps ok inv (f x) fun _ ↦ True) :
    Keeps ok inv (stopAt f xs) fun _ ↦ True := by
  induction xs with
  | nil => exact keeps_pure trivial
  | cons x xs ih =>
    apply keeps_bind (h x List.mem_cons_self)
    intro b _
    apply keeps_ite
    · intro _
      exact ih fun y hy ↦ h y (List.mem_cons_of_mem x hy)
    · intro _
      exact keeps_pure trivial

end

end Prog

end Xv6K210.Base
