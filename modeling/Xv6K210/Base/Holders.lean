import Mathlib.Data.Set.Card
import Std.Data.ExtTreeMap

/-!
# Holders of a resource

Library `Base`. Handles of any kind hold a resource each, or none. `holders f y` is the number of
handles that hold `y`; it follows a handle that takes or drops a resource, a renaming of the
handles, and a class of handles that drop what a list tells. The values of a finite map are such a
list.
-/

namespace Xv6K210.Base

variable {ι κ α : Type} {f f' : ι → Option α}

/-- The number of handles that hold `a`. -/
noncomputable def holders (f : ι → Option α) (a : α) : ℕ∞ := {i | f i = some a}.encard

/-- Nobody holds what has no holders. -/
theorem holders_eq_zero {a : α} : holders f a = 0 ↔ ∀ i, f i ≠ some a := by
  rw [holders, Set.encard_eq_zero, Set.eq_empty_iff_forall_notMem]
  rfl

/-- What somebody holds has a holder. -/
theorem holders_pos {a : α} {i : ι} (h : f i = some a) : holders f a ≠ 0 := fun hzero ↦
  holders_eq_zero.mp hzero i h

/-- Other names for the handles. -/
theorem holders_equiv (e : κ ≃ ι) (h : ∀ k, f' (e k) = f (e k)) (a : α) :
    holders (fun k ↦ f (e k)) a = holders f' a := by
  have himage : {i | f' i = some a} = e '' {k | f (e k) = some a} := by
    ext i
    constructor
    · intro hi
      refine ⟨e.symm i, ?_, e.apply_symm_apply i⟩
      rw [Set.mem_ofPred_eq, ← h, e.apply_symm_apply]
      exact hi
    · rintro ⟨k, hk, rfl⟩
      exact (h k).trans hk
  rw [holders, holders, himage, e.injective.encard_image]

variable [DecidableEq α]

/-- A class of handles drops what the list `l` tells. -/
theorem holders_drop {C : ι → Prop} {l : List α} (hrest : ∀ i, ¬ C i → f' i = f i)
    (hnone : ∀ i, C i → f' i = none)
    (hlist : ∀ a, {i | C i ∧ f i = some a}.encard = l.count a) (a : α) :
    holders f a = holders f' a + l.count a := by
  have hsplit : {i | f i = some a} = {i | f' i = some a} ∪ {i | C i ∧ f i = some a} := by
    ext i
    by_cases hi : C i
    · simp only [Set.mem_ofPred_eq, Set.mem_union, hi, hnone i hi, true_and, reduceCtorEq, false_or]
    · simp only [Set.mem_ofPred_eq, Set.mem_union, hi, hrest i hi, false_and, or_false]
  have hdisjoint : Disjoint {i | f' i = some a} {i | C i ∧ f i = some a} := by
    rw [Set.disjoint_left]
    intro i hi hc
    rw [Set.mem_ofPred_eq, hnone i hc.1] at hi
    cases hi
  rw [holders, holders, hsplit, Set.encard_union_eq hdisjoint, hlist]

/-- One handle that holds `b`. -/
theorem encard_one {i : ι} {b : α} (hi : f i = some b) (a : α) :
    {j | j = i ∧ f j = some a}.encard = [b].count a := by
  by_cases ha : a = b
  · have hone : {j | j = i ∧ f j = some a} = {i} := by
      ext j
      constructor
      · exact fun h ↦ h.1
      · rintro rfl
        exact ⟨rfl, by rw [hi, ha]⟩
    rw [hone, Set.encard_singleton, ha, List.count_singleton_self]
    rfl
  · have hnone : {j | j = i ∧ f j = some a} = ∅ := by
      rw [Set.eq_empty_iff_forall_notMem]
      rintro j ⟨rfl, hj⟩
      rw [hi] at hj
      exact ha (Option.some.inj hj).symm
    rw [hnone, Set.encard_empty, List.count_singleton, if_neg]
    · rfl
    · rw [beq_iff_eq]
      exact fun h ↦ ha h.symm

/-- A handle drops its resource. -/
theorem holders_lose {i : ι} {b : α} (hrest : ∀ j, j ≠ i → f' j = f j) (hi : f i = some b)
    (hi' : f' i = none) (a : α) : holders f a = holders f' a + [b].count a :=
  holders_drop (C := (· = i)) hrest (by rintro _ rfl; exact hi') (encard_one hi) a

/-- A handle takes a resource. -/
theorem holders_gain {i : ι} {b : α} (hrest : ∀ j, j ≠ i → f' j = f j) (hi : f i = none)
    (hi' : f' i = some b) (a : α) : holders f' a = holders f a + [b].count a :=
  holders_lose (fun j hj ↦ (hrest j hj).symm) hi' hi a

/-- Handles that are named by the keys of a list. -/
theorem encard_keyed {l : List (κ × α)} (hl : (l.map Prod.fst).Nodup) {g : κ → ι}
    (hg : Function.Injective g) {a : α} {C : ι → Prop} (hC : ∀ i, C i ↔ ∃ k, i = g k)
    (hf : ∀ k a, f (g k) = some a ↔ (k, a) ∈ l) :
    {i | C i ∧ f i = some a}.encard = (l.map Prod.snd).count a := by
  have hset : {i | C i ∧ f i = some a} = g '' {k | (k, a) ∈ l} := by
    ext i
    simp only [Set.mem_ofPred_eq, Set.mem_image, hC]
    constructor
    · rintro ⟨⟨k, rfl⟩, hk⟩
      exact ⟨k, (hf k a).mp hk, rfl⟩
    · rintro ⟨k, hk, rfl⟩
      exact ⟨⟨k, rfl⟩, (hf k a).mpr hk⟩
  rw [hset, hg.encard_image]
  clear hset hf
  induction l with
  | nil =>
    have hempty : {k : κ | (k, a) ∈ ([] : List (κ × α))} = ∅ := by
      rw [Set.eq_empty_iff_forall_notMem]
      exact fun k hk ↦ absurd hk List.not_mem_nil
    rw [hempty, Set.encard_empty]
    rfl
  | cons x l ih =>
    obtain ⟨k, b⟩ := x
    rw [List.map_cons, List.nodup_cons] at hl
    rw [List.map_cons, List.count_cons, Nat.cast_add, ← ih hl.2]
    by_cases hb : b = a
    · subst hb
      have hins : {j | (j, b) ∈ (k, b) :: l} = insert k {j | (j, b) ∈ l} := by
        ext j
        simp only [Set.mem_ofPred_eq, List.mem_cons, Prod.mk.injEq, and_true, Set.mem_insert_iff]
      rw [hins, Set.encard_insert_of_notMem, if_pos (beq_self_eq_true b), Nat.cast_one]
      exact fun hk ↦ hl.1 (List.mem_map.mpr ⟨_, hk, rfl⟩)
    · have hsame : {j | (j, a) ∈ (k, b) :: l} = {j | (j, a) ∈ l} := by
        ext j
        simp only [Set.mem_ofPred_eq, List.mem_cons, Prod.mk.injEq]
        exact ⟨fun h ↦ h.resolve_left fun h ↦ hb h.2.symm, .inr⟩
      rw [hsame, if_neg, Nat.cast_zero, add_zero]
      rw [beq_iff_eq]
      exact hb

/-- Handles that are named by the places of a list. -/
theorem encard_indexed {l : List α} {g : Nat → ι} (hg : Function.Injective g) {a : α}
    {C : ι → Prop} (hC : ∀ i, C i ↔ ∃ k, i = g k) (hf : ∀ k, f (g k) = l[k]?) :
    {i | C i ∧ f i = some a}.encard = l.count a := by
  have hfst : (l.zipIdx.map Prod.swap).map Prod.fst = List.range' 0 l.length := by
    rw [List.map_map]
    exact List.zipIdx_map_snd 0 l
  have hsnd : (l.zipIdx.map Prod.swap).map Prod.snd = l := by
    rw [List.map_map]
    exact List.zipIdx_map_fst 0 l
  rw [← hsnd]
  refine encard_keyed ?_ hg hC fun k b ↦ ?_
  · rw [hfst]
    exact List.nodup_range'
  · rw [hf, List.mem_map]
    constructor
    · intro hk
      exact ⟨(b, k), List.mem_zipIdx_iff_getElem?.mpr hk, rfl⟩
    · rintro ⟨⟨c, j⟩, hj, heq⟩
      cases heq
      exact List.mem_zipIdx_iff_getElem?.mp hj

/-- Two classes of handles, each with its list. -/
theorem encard_append {C C1 C2 : ι → Prop} {l1 l2 : List α}
    (hC : ∀ i a, C i ∧ f i = some a ↔ (C1 i ∨ C2 i) ∧ f i = some a)
    (hdisjoint : ∀ i, C1 i → ¬ C2 i)
    (h1 : ∀ a, {i | C1 i ∧ f i = some a}.encard = l1.count a)
    (h2 : ∀ a, {i | C2 i ∧ f i = some a}.encard = l2.count a) (a : α) :
    {i | C i ∧ f i = some a}.encard = (l1 ++ l2).count a := by
  have hunion : {i | C i ∧ f i = some a} =
      {i | C1 i ∧ f i = some a} ∪ {i | C2 i ∧ f i = some a} := by
    ext i
    simp only [Set.mem_ofPred_eq, Set.mem_union, hC, or_and_right]
  have hdisj : Disjoint {i | C1 i ∧ f i = some a} {i | C2 i ∧ f i = some a} := by
    rw [Set.disjoint_left]
    exact fun i hi hi' ↦ hdisjoint i hi.1 hi'.1
  rw [hunion, Set.encard_union_eq hdisj, h1, h2, List.count_append, Nat.cast_add]

omit [DecidableEq α] in
/-- A few handles hold `a` when they can be told apart by a map into a finite type. -/
theorem holders_le [Fintype κ] (g : ι → κ) {a : α}
    (hg : ∀ i j, f i = some a → f j = some a → g i = g j → i = j) :
    holders f a ≤ Fintype.card κ := by
  rw [holders]
  have hinj : Set.InjOn g {i | f i = some a} := fun i hi j hj h ↦ hg i j hi hj h
  calc {i | f i = some a}.encard = (g '' {i | f i = some a}).encard := hinj.encard_image.symm
    _ ≤ (Set.univ : Set κ).encard := Set.encard_le_encard (Set.subset_univ _)
    _ = Fintype.card κ := by rw [Set.encard_univ, ENat.card_eq_coe_fintype_card]

/-! ### Finite maps -/

omit [DecidableEq α] in
/-- The values of a map are those of its bindings. -/
theorem values_eq_map_toList (m : Std.ExtTreeMap Nat α) : m.values = m.toList.map Prod.snd := by
  obtain ⟨m⟩ := m
  change m.values = (Std.ExtDTreeMap.Const.toList m).map Prod.snd
  induction m using Std.ExtDTreeMap.inductionOn with
  | mk m =>
    change m.inner.values = (Std.DTreeMap.Internal.Impl.Const.toList m.inner).map Prod.snd
    rw [Std.DTreeMap.Internal.Impl.values_eq_map_snd,
      Std.DTreeMap.Internal.Impl.Const.toList_eq_toListModel_map, List.map_map]
    rfl

omit [DecidableEq α] in
/-- A map lists each key once. -/
theorem nodup_keys_toList (m : Std.ExtTreeMap Nat α) : (m.toList.map Prod.fst).Nodup := by
  rw [List.Nodup, List.pairwise_map]
  refine m.distinct_keys_toList.imp ?_
  intro x y hne heq
  exact hne (compare_eq_iff_eq.mpr heq)

end Xv6K210.Base
