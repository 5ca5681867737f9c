import Mathlib.Data.List.Basic
import Mathlib.Data.List.Nodup

/-!
# Recency lists

Library `Base`. A recency list holds every key once, the one used last first. A key that is used
moves to the front, and a victim is looked for from the back.
-/

namespace Xv6K210.Base

variable {α : Type} {l : List α} {a b x : α}

/-- `a` stands before `b`. -/
def Before (l : List α) (a b : α) : Prop := [a, b].Sublist l

/-- The last key that satisfies `p`. -/
def lastWith (p : α → Bool) (l : List α) : Option α := l.reverse.find? p

section

variable [DecidableEq α]

/-- Move a key to the front. -/
def toFront (x : α) (l : List α) : List α := x :: l.erase x

/-- Moving to the front keeps the members. -/
theorem mem_toFront (h : x ∈ l) : a ∈ toFront x l ↔ a ∈ l := by
  unfold toFront
  rw [List.mem_cons]
  constructor
  · rintro (rfl | ha)
    · exact h
    · exact List.mem_of_mem_erase ha
  · intro ha
    by_cases hax : a = x
    · exact .inl hax
    · exact .inr ((List.mem_erase_of_ne hax).mpr ha)

/-- Moving to the front doubles nothing. -/
theorem nodup_toFront (h : l.Nodup) : (toFront x l).Nodup := by
  unfold toFront
  rw [List.nodup_cons]
  exact ⟨h.not_mem_erase, h.erase x⟩

/-- The key that is moved stands before every other one. -/
theorem before_toFront_self (hb : b ∈ l) (hne : b ≠ x) : Before (toFront x l) x b := by
  unfold Before toFront
  rw [List.cons_sublist_cons, List.singleton_sublist]
  exact (List.mem_erase_of_ne hne).mpr hb

/-- The other keys keep their order. -/
theorem before_toFront (h : Before l a b) (ha : a ≠ x) (hb : b ≠ x) :
    Before (toFront x l) a b := by
  unfold Before toFront
  apply List.Sublist.cons
  have := h.erase x
  rwa [List.erase_of_not_mem] at this
  simp [ha.symm, hb.symm]

end

/-- Behind the last key that satisfies `p` there is none that does. -/
theorem lastWith_before {p : α → Bool} (hnodup : l.Nodup) (hlast : lastWith p l = some a)
    (h : Before l a b) : p b = false := by
  unfold lastWith at hlast
  rw [List.find?_eq_some_iff_append] at hlast
  obtain ⟨-, post, pre, heq, hpost⟩ := hlast
  have hl : l = pre.reverse ++ a :: post.reverse := by
    rw [← List.reverse_reverse l, heq]
    simp
  rw [hl] at h hnodup
  have hb : b ∈ post.reverse := by
    have hnot : a ∉ pre.reverse := by
      intro ha
      exact (List.nodup_append.mp hnodup).2.2 a ha a List.mem_cons_self rfl
    have hsub := h
    unfold Before at hsub
    rw [List.sublist_append_iff] at hsub
    obtain ⟨l1, l2, heq', h1, h2⟩ := hsub
    cases l1 with
    | nil =>
      rw [List.nil_append] at heq'
      rw [← heq', List.cons_sublist_cons, List.singleton_sublist] at h2
      exact h2
    | cons c l1 =>
      obtain ⟨rfl, -⟩ := List.cons_eq_cons.mp heq'
      exact absurd (h1.subset List.mem_cons_self) hnot
  simpa using hpost b (List.mem_reverse.mp hb)

/-- What is found last is in the list and has the property. -/
theorem lastWith_some {p : α → Bool} (h : lastWith p l = some a) : a ∈ l ∧ p a = true := by
  unfold lastWith at h
  exact ⟨List.mem_reverse.mp (List.mem_of_find?_eq_some h), List.find?_some h⟩

/-- Before the first key that satisfies `p` there is none that does. -/
theorem find?_before {p : α → Bool} (hnodup : l.Nodup) (hfirst : l.find? p = some b)
    (h : Before l a b) : p a = false := by
  apply lastWith_before (List.nodup_reverse.mpr hnodup) (a := b)
  · unfold lastWith
    rw [List.reverse_reverse]
    exact hfirst
  · unfold Before
    exact h.reverse

/-- One of two keys stands before the other. -/
theorem before_total (ha : a ∈ l) (hb : b ∈ l) (hne : a ≠ b) : Before l a b ∨ Before l b a := by
  induction l with
  | nil => cases ha
  | cons x l ih =>
    rcases List.mem_cons.mp ha with rfl | ha'
    · rcases List.mem_cons.mp hb with rfl | hb'
      · exact absurd rfl hne
      · exact .inl (List.cons_sublist_cons.mpr (List.singleton_sublist.mpr hb'))
    · rcases List.mem_cons.mp hb with rfl | hb'
      · exact .inr (List.cons_sublist_cons.mpr (List.singleton_sublist.mpr ha'))
      · rcases ih ha' hb' with h | h
        · exact .inl (h.cons x)
        · exact .inr (h.cons x)

end Xv6K210.Base
