import Mathlib.Data.List.Nodup
import Mathlib.Logic.Function.Basic
import Mathlib.Tactic.Common

/-!
# Singly linked lists in memory

Library `Base`. A head points to a node, the first word of a node to the next one, and the
null pointer ends the list. What is written elsewhere does not change the list, and a node
may be pushed, popped, or unlinked at any place.
-/

namespace Xv6K210.Base

variable {α : Type} [DecidableEq α] {null : α} {next next' : α → α}

/-- `Listed null next h l`: the nodes from the pointer `h` on are `l`. -/
def Listed (null : α) (next : α → α) : α → List α → Prop
  | h, [] => h = null
  | h, a :: l => h = a ∧ a ≠ null ∧ Listed null next (next a) l

namespace Listed

omit [DecidableEq α] in
/-- Only the words of its own nodes matter to a list. -/
theorem congr {h : α} {l : List α} (hl : Listed null next h l)
    (hnext : ∀ a ∈ l, next' a = next a) : Listed null next' h l := by
  induction l generalizing h with
  | nil => exact hl
  | cons a l ih =>
    refine ⟨hl.1, hl.2.1, ?_⟩
    rw [hnext a List.mem_cons_self]
    exact ih hl.2.2 fun b hb ↦ hnext b (List.mem_cons_of_mem _ hb)

/-- A write to a word that is no node changes nothing. -/
theorem update {h : α} {l : List α} (hl : Listed null next h l) {a : α} (ha : a ∉ l) (x : α) :
    Listed null (Function.update next a x) h l := by
  apply hl.congr
  intro b hb
  apply Function.update_of_ne
  rintro rfl
  exact ha hb

/-- A node in front. -/
theorem push {h : α} {l : List α} (hl : Listed null next h l) {a : α} (hne : a ≠ null)
    (ha : a ∉ l) : Listed null (Function.update next a h) a (a :: l) := by
  refine ⟨rfl, hne, ?_⟩
  rw [Function.update_self]
  exact hl.update ha h

omit [DecidableEq α] in
/-- From the null link only the empty list is read. -/
theorem eq_nil {l : List α} (hl : Listed null next null l) : l = [] := by
  cases l with
  | nil => rfl
  | cons a l => exact absurd hl.1.symm hl.2.1

omit [DecidableEq α] in
/-- The first node, when there is one. -/
theorem pop {h : α} {l : List α} (hl : Listed null next h l) (hne : h ≠ null) :
    ∃ l', l = h :: l' ∧ Listed null next (next h) l' := by
  cases l with
  | nil => exact absurd hl hne
  | cons a l =>
    obtain ⟨rfl, _, hl'⟩ := hl
    exact ⟨l, rfl, hl'⟩

omit [DecidableEq α] in
/-- The nodes are determined by the pointer. -/
theorem unique {h : α} {l l' : List α} (hl : Listed null next h l)
    (hl' : Listed null next h l') : l = l' := by
  induction l generalizing h l' with
  | nil =>
    have hnull : h = null := hl
    rw [hnull] at hl'
    exact hl'.eq_nil.symm
  | cons a l ih =>
    obtain ⟨rfl, hne, hrest⟩ := hl
    obtain ⟨t, rfl, ht⟩ := hl'.pop hne
    rw [ih hrest ht]

omit [DecidableEq α] in
/-- The node that a node of the list points to. -/
theorem next_mem {h : α} {l : List α} (hl : Listed null next h l) {b : α} (hb : b ∈ l)
    (hne : next b ≠ null) : next b ∈ l := by
  induction l generalizing h with
  | nil => exact absurd hb List.not_mem_nil
  | cons c l ih =>
    rcases List.mem_cons.mp hb with rfl | hb
    · obtain ⟨l', rfl, _⟩ := hl.2.2.pop hne
      exact List.mem_cons_of_mem _ List.mem_cons_self
    · exact List.mem_cons_of_mem _ (ih hl.2.2 hb)

/-- The node behind `b` is unlinked. -/
theorem unlink {h : α} {l : List α} (hl : Listed null next h l) (hnodup : l.Nodup) {b : α}
    (hb : b ∈ l) (hne : next b ≠ null) :
    Listed null (Function.update next b (next (next b))) h (l.erase (next b)) := by
  induction l generalizing h with
  | nil => exact absurd hb List.not_mem_nil
  | cons c l ih =>
    have hnd := List.nodup_cons.mp hnodup
    obtain ⟨hh, hc, hrest⟩ := hl
    by_cases hcb : c = b
    · subst hcb
      obtain ⟨l', rfl, hl'⟩ := hrest.pop hne
      have hne' : c ≠ next c := by
        intro heq
        apply hnd.1
        rw [← heq]
        exact List.mem_cons_self
      rw [List.erase_cons_tail (by simpa using hne'), List.erase_cons_head]
      refine ⟨hh, hc, ?_⟩
      rw [Function.update_self]
      exact hl'.update (fun hm ↦ hnd.1 (List.mem_cons_of_mem _ hm)) _
    · have hb' : b ∈ l := (List.mem_cons.mp hb).resolve_left (Ne.symm hcb)
      have hne' : c ≠ next b := by
        rintro rfl
        exact hnd.1 (hrest.next_mem hb' hne)
      rw [List.erase_cons_tail (by simpa using hne')]
      refine ⟨hh, hc, ?_⟩
      rw [Function.update_of_ne hcb]
      exact ih hrest hnd.2 hb'

end Listed

end Xv6K210.Base
