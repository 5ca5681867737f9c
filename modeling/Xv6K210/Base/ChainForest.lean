import Mathlib.Data.List.Basic
import Mathlib.Data.List.Nodup
import Mathlib.Logic.Function.Basic
import Mathlib.Tactic.Common

/-!
# Chains threaded through a successor table

Library `Base`. A table `next` gives each node its successor; a chain is a list of nodes
that follow each other through the table and end in a stop mark. A `Forest` is a family
of chains that share no node and together hold every node that is not free. Starting,
extending and releasing one chain keep the family a forest.
-/

namespace Xv6K210.Base

open Function

variable {ι α : Type} [DecidableEq ι] [DecidableEq α]

/-- Each node links to the one after it and the last one links to a stop mark. -/
def Linked (next : α → α) (stop : α → Prop) : List α → Prop
  | [] => True
  | [c] => stop (next c)
  | c :: d :: l => next c = d ∧ Linked next stop (d :: l)

omit [DecidableEq α] in
/-- A chain depends only on the successors of its own nodes. -/
theorem linked_congr {next next' : α → α} {stop : α → Prop} :
    ∀ {l : List α}, (∀ c ∈ l, next' c = next c) → (Linked next' stop l ↔ Linked next stop l)
  | [], _ => Iff.rfl
  | [c], h => by simp only [Linked, h c (by simp)]
  | c :: d :: l, h => by
    have ih : Linked next' stop (d :: l) ↔ Linked next stop (d :: l) :=
      linked_congr fun x hx ↦ h x (List.mem_cons_of_mem _ hx)
    simp only [Linked, h c (by simp), ih]

/-- Changing the successor of a node outside a chain keeps the chain. -/
theorem linked_update_of_not_mem {next : α → α} {stop : α → Prop} {l : List α} {c x : α}
    (hc : c ∉ l) : Linked (update next c x) stop l ↔ Linked next stop l := by
  apply linked_congr
  intro d hd
  apply update_of_ne
  rintro rfl
  exact hc hd

section

omit [DecidableEq α]

/-- Only one chain starts at a node, where no node is a stop mark. -/
theorem Linked.unique {next : α → α} {stop dom : α → Prop} (hstop : ∀ c, dom c → ¬ stop c) :
    ∀ {l l' : List α}, Linked next stop l → Linked next stop l' → (∀ c ∈ l, dom c) →
      (∀ c ∈ l', dom c) → l.head? = l'.head? → l = l'
  | [], [], _, _, _, _, _ => rfl
  | [], c :: l', _, _, _, _, hhead => by cases hhead
  | c :: l, [], _, _, _, _, hhead => by cases hhead
  | [c], [c'], _, _, _, _, hhead => by rw [Option.some.inj hhead]
  | [c], c' :: d' :: l', h, h', _, hdom', hhead => by
    rw [Option.some.inj hhead] at h
    exact absurd (h'.1 ▸ h) (hstop d' (hdom' d' (by simp)))
  | c :: d :: l, [c'], h, h', hdom, _, hhead => by
    rw [← Option.some.inj hhead] at h'
    exact absurd (h.1 ▸ h') (hstop d (hdom d (by simp)))
  | c :: d :: l, c' :: d' :: l', h, h', hdom, hdom', hhead => by
    have hc : c = c' := Option.some.inj hhead
    have hd : d = d' := by rw [← h.1, ← h'.1, hc]
    rw [hc, Linked.unique hstop h.2 h'.2 (fun x hx ↦ hdom x (List.mem_cons_of_mem _ hx))
      (fun x hx ↦ hdom' x (List.mem_cons_of_mem _ hx)) (congrArg some hd)]

/-- Consecutive nodes are linked. -/
theorem Linked.next_eq {next : α → α} {stop : α → Prop} :
    ∀ {l : List α} (_ : Linked next stop l) {i : Nat} {c d : α},
      l[i]? = some c → l[i + 1]? = some d → next c = d
  | [], _, i, c, d, hc, _ => by simp at hc
  | [x], _, i, c, d, _, hd => by simp at hd
  | x :: y :: l, h, 0, c, d, hc, hd => by
    simp only [List.getElem?_cons_zero, Option.some.injEq] at hc
    simp only [Nat.zero_add, List.getElem?_cons_succ, List.getElem?_cons_zero,
      Option.some.injEq] at hd
    rw [← hc, ← hd]
    exact h.1
  | x :: y :: l, h, i + 1, c, d, hc, hd => by
    simp only [List.getElem?_cons_succ] at hc hd
    exact Linked.next_eq h.2 hc hd

/-- The last node links to a stop mark. -/
theorem Linked.stop_last {next : α → α} {stop : α → Prop} :
    ∀ {l : List α} (_ : Linked next stop l) {c : α}, l.getLast? = some c → stop (next c)
  | [], _, c, hc => by simp at hc
  | [x], h, c, hc => by
    simp only [List.getLast?_singleton, Option.some.injEq] at hc
    rw [← hc]
    exact h
  | x :: y :: l, h, c, hc => by
    rw [List.getLast?_cons_cons] at hc
    exact Linked.stop_last h.2 hc

/-- What follows a node of a chain is the stop mark or another node of the chain. -/
theorem Linked.next_cases {next : α → α} {stop : α → Prop} :
    ∀ {l : List α} (_ : Linked next stop l) {c : α}, c ∈ l → stop (next c) ∨ next c ∈ l
  | [], _, c, hc => by simp at hc
  | [x], h, c, hc => by
    simp only [List.mem_singleton] at hc
    rw [hc]
    exact .inl h
  | x :: y :: l, h, c, hc => by
    rcases List.mem_cons.mp hc with rfl | hc
    · right
      rw [h.1]
      simp
    · rcases Linked.next_cases h.2 hc with hs | hm
      · exact .inl hs
      · exact .inr (List.mem_cons_of_mem _ hm)

end

/-- A free node can be linked behind the last node of a chain. -/
theorem Linked.concat {next : α → α} {stop : α → Prop} {e : α} (he : stop e) :
    ∀ {l : List α} (_ : Linked next stop l) {z c : α}, l.getLast? = some z →
      (l ++ [c]).Nodup →
      Linked (update (update next c e) z c) stop (l ++ [c])
  | [], _, z, c, hz, _ => by simp at hz
  | [x], _, z, c, hz, hn => by
    simp only [List.getLast?_singleton, Option.some.injEq] at hz
    subst hz
    have hcx : c ≠ x := by
      rintro rfl
      simp at hn
    simp [Linked, update_of_ne hcx, he]
  | x :: y :: l, h, z, c, hz, hn => by
    rw [List.getLast?_cons_cons] at hz
    have hx : x ∉ (y :: l) ++ [c] := (List.nodup_cons.mp hn).1
    have hxc : x ≠ c := fun hc ↦ hx (by simp [hc])
    have hxz : x ≠ z := fun hc ↦ hx (List.mem_append_left _ (hc ▸ List.mem_of_getLast? hz))
    refine ⟨?_, Linked.concat he h.2 hz (List.nodup_cons.mp hn).2⟩
    rw [update_of_ne hxz, update_of_ne hxc]
    exact h.1

/-- A family of disjoint acyclic chains inside `dom` that holds every node of `dom`
whose successor is not the mark `free`. -/
structure Forest (next : α → α) (stop : α → Prop) (free : α) (dom : α → Prop)
    (chain : ι → List α) : Prop where
  linked : ∀ i, Linked next stop (chain i)
  nodup : ∀ i, (chain i).Nodup
  inDom : ∀ i, ∀ c ∈ chain i, dom c
  disjoint : ∀ i j, i ≠ j → List.Disjoint (chain i) (chain j)
  covered : ∀ c, dom c → next c ≠ free → ∃ i, c ∈ chain i

namespace Forest

variable {next : α → α} {stop : α → Prop} {free : α} {dom : α → Prop} {chain : ι → List α}

section

omit [DecidableEq ι] [DecidableEq α]

/-- No node of a chain is free. -/
theorem used (h : Forest next stop free dom chain) (hs : ¬ stop free) (hd : ¬ dom free)
    {i : ι} {c : α} (hc : c ∈ chain i) : next c ≠ free := by
  intro hf
  rcases (h.linked i).next_cases hc with hx | hx
  · exact hs (hf ▸ hx)
  · exact hd (hf ▸ h.inDom i _ hx)

/-- A free node lies in no chain. -/
theorem not_mem_of_free (h : Forest next stop free dom chain) (hs : ¬ stop free)
    (hd : ¬ dom free) {c : α} (hc : next c = free) (i : ι) : c ∉ chain i :=
  fun hm ↦ h.used hs hd hm hc

/-- A node lies in at most one chain. -/
theorem index_unique (h : Forest next stop free dom chain) {i j : ι} {c : α}
    (hi : c ∈ chain i) (hj : c ∈ chain j) : i = j := by
  by_contra hn
  exact h.disjoint i j hn hi hj

end

omit [DecidableEq α] in
private theorem disjoint_update (h : Forest next stop free dom chain) {i : ι} {l : List α}
    (hl : ∀ c ∈ l, c ∈ chain i ∨ ∀ j, c ∉ chain j) :
    ∀ j k, j ≠ k → List.Disjoint (update chain i l j) (update chain i l k) := by
  intro j k hjk c hj hk
  by_cases hji : j = i
  · subst hji
    rw [update_self] at hj
    rw [update_of_ne (Ne.symm hjk)] at hk
    rcases hl c hj with hc | hc
    · exact h.disjoint j k hjk hc hk
    · exact hc k hk
  · rw [update_of_ne hji] at hj
    by_cases hki : k = i
    · subst hki
      rw [update_self] at hk
      rcases hl c hk with hc | hc
      · exact h.disjoint j k hjk hj hc
      · exact hc j hj
    · rw [update_of_ne hki] at hk
      exact h.disjoint j k hjk hj hk

/-- A free node starts a chain where there was none. -/
theorem start (h : Forest next stop free dom chain) (hs : ¬ stop free) (hd : ¬ dom free)
    {i : ι} {c e : α} (hi : chain i = []) (hc : dom c) (hf : next c = free) (he : stop e) :
    Forest (update next c e) stop free dom (update chain i [c]) where
  linked j := by
    by_cases hj : j = i
    · subst hj
      simpa [Linked] using he
    · rw [update_of_ne hj, linked_update_of_not_mem (h.not_mem_of_free hs hd hf j)]
      exact h.linked j
  nodup j := by
    by_cases hj : j = i
    · subst hj
      simp
    · rw [update_of_ne hj]
      exact h.nodup j
  inDom j x hx := by
    by_cases hj : j = i
    · subst hj
      rw [update_self, List.mem_singleton] at hx
      rwa [hx]
    · rw [update_of_ne hj] at hx
      exact h.inDom j x hx
  disjoint := by
    apply h.disjoint_update
    intro x hx
    rw [List.mem_singleton] at hx
    rw [hx]
    exact .inr (h.not_mem_of_free hs hd hf)
  covered x hx hn := by
    by_cases hxc : x = c
    · exact ⟨i, by simp [hxc]⟩
    · rw [update_of_ne hxc] at hn
      obtain ⟨j, hj⟩ := h.covered x hx hn
      refine ⟨j, ?_⟩
      have hji : j ≠ i := by
        rintro rfl
        simp [hi] at hj
      rwa [update_of_ne hji]

/-- A free node extends a chain behind its last node. -/
theorem extend (h : Forest next stop free dom chain) (hs : ¬ stop free) (hd : ¬ dom free)
    {i : ι} {z c e : α} (hz : (chain i).getLast? = some z) (hc : dom c)
    (hf : next c = free) (he : stop e) :
    Forest (update (update next c e) z c) stop free dom
      (update chain i (chain i ++ [c])) := by
  have hfree := h.not_mem_of_free hs hd hf
  have hzi : z ∈ chain i := List.mem_of_getLast? hz
  have hzc : z ≠ c := fun hx ↦ hfree i (hx ▸ hzi)
  have hnod : (chain i ++ [c]).Nodup := by
    rw [List.nodup_append]
    exact ⟨h.nodup i, by simp, fun a ha b hb ↦ by
      rw [List.mem_singleton.mp hb]
      rintro rfl
      exact hfree i ha⟩
  refine ⟨fun j ↦ ?_, fun j ↦ ?_, fun j x hx ↦ ?_, ?_, fun x hx hn ↦ ?_⟩
  · by_cases hj : j = i
    · subst hj
      rw [update_self]
      exact (h.linked j).concat he hz hnod
    · have hzj : z ∉ chain j := fun hx ↦ hj (h.index_unique hx hzi)
      rw [update_of_ne hj, linked_update_of_not_mem hzj,
        linked_update_of_not_mem (hfree j)]
      exact h.linked j
  · by_cases hj : j = i
    · subst hj
      rwa [update_self]
    · rw [update_of_ne hj]
      exact h.nodup j
  · by_cases hj : j = i
    · subst hj
      rw [update_self, List.mem_append, List.mem_singleton] at hx
      rcases hx with hx | rfl
      · exact h.inDom j x hx
      · exact hc
    · rw [update_of_ne hj] at hx
      exact h.inDom j x hx
  · apply h.disjoint_update
    intro x hx
    rw [List.mem_append, List.mem_singleton] at hx
    rcases hx with hx | rfl
    · exact .inl hx
    · exact .inr hfree
  · have hmem : ∀ j y, y ∈ chain j → y ∈ update chain i (chain i ++ [c]) j := by
      intro j y hy
      by_cases hj : j = i
      · subst hj
        rw [update_self]
        exact List.mem_append_left _ hy
      · rwa [update_of_ne hj]
    by_cases hxc : x = c
    · exact ⟨i, by simp [hxc]⟩
    · by_cases hxz : x = z
      · exact ⟨i, hmem i x (hxz ▸ hzi)⟩
      · rw [update_of_ne hxz, update_of_ne hxc] at hn
        obtain ⟨j, hj⟩ := h.covered x hx hn
        exact ⟨j, hmem j x hj⟩

/-- Freeing every node of one chain empties that chain. -/
theorem release (h : Forest next stop free dom chain) (i : ι) :
    Forest (fun c ↦ if c ∈ chain i then free else next c) stop free dom
      (update chain i []) := by
  have hother : ∀ j, j ≠ i → ∀ c ∈ chain j, c ∉ chain i :=
    fun j hj c hc hi ↦ hj (h.index_unique hc hi)
  refine ⟨fun j ↦ ?_, fun j ↦ ?_, fun j x hx ↦ ?_, ?_, fun x hx hn ↦ ?_⟩
  · by_cases hj : j = i
    · subst hj
      simp [Linked]
    · rw [update_of_ne hj]
      refine (linked_congr fun c hc ↦ ?_).mpr (h.linked j)
      rw [if_neg (hother j hj c hc)]
  · by_cases hj : j = i
    · subst hj
      simp
    · rw [update_of_ne hj]
      exact h.nodup j
  · by_cases hj : j = i
    · subst hj
      simp at hx
    · rw [update_of_ne hj] at hx
      exact h.inDom j x hx
  · apply h.disjoint_update
    simp
  · by_cases hxi : x ∈ chain i
    · simp [hxi] at hn
    · rw [if_neg hxi] at hn
      obtain ⟨j, hj⟩ := h.covered x hx hn
      refine ⟨j, ?_⟩
      have hji : j ≠ i := by
        rintro rfl
        exact hxi hj
      rwa [update_of_ne hji]

end Forest

end Xv6K210.Base
