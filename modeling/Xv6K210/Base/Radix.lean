import Mathlib.Logic.Function.Basic

/-!
# Radix trees in memory

Library `Base`. A key has a digit at every depth, a node is a block of memory with an entry for
every digit, and an entry may lead to a node one level down. As long as no two prefixes of keys
lead to the same node, a write into a node at the bottom changes one key only, and a new node that
is linked in holds nothing.
-/

namespace Xv6K210.Base

open Function

/-- The shape of a radix tree: where it begins, the digits of a key, and where an entry leads. -/
structure Radix (A I E K : Type) where
  root : A
  digit : K → Nat → I
  child : E → Option A

namespace Radix

variable {A I E K : Type} (t : Radix A I E K) (mem : A → I → E) (bottom : Nat)

/-- The node at a depth on the path of a key. -/
def node (k : K) : Nat → Option A
  | 0 => some t.root
  | d + 1 => (node k d).bind fun p ↦ t.child (mem p (t.digit k d))

/-- The entry of a key in its node at the bottom. -/
def entry (k : K) : Option E := (t.node mem k bottom).map fun p ↦ mem p (t.digit k bottom)

/-- Two keys agree on the digits above a depth. -/
def Agree (d : Nat) (k k' : K) : Prop := ∀ e < d, t.digit k e = t.digit k' e

/-- A block of memory that is a node. -/
def IsNode (p : A) : Prop := ∃ k d, d ≤ bottom ∧ t.node mem k d = some p

/-- Every node is reached in one way only. -/
def Separate : Prop :=
  ∀ ⦃d d' : Nat⦄ ⦃k k' : K⦄ ⦃p : A⦄, d ≤ bottom → d' ≤ bottom → t.node mem k d = some p →
    t.node mem k' d' = some p → d = d' ∧ t.Agree d k k'

variable {t mem bottom}

/-- Agreement is symmetric. -/
theorem Agree.symm {d : Nat} {k k' : K} (h : t.Agree d k k') : t.Agree d k' k :=
  fun e he ↦ (h e he).symm

/-- Agreement is transitive. -/
theorem Agree.trans {d : Nat} {k k' k'' : K} (h : t.Agree d k k') (h' : t.Agree d k' k'') :
    t.Agree d k k'' :=
  fun e he ↦ (h e he).trans (h' e he)

/-- Keys that agree on more digits agree on fewer. -/
theorem Agree.mono {d d' : Nat} {k k' : K} (h : t.Agree d k k') (hle : d' ≤ d) : t.Agree d' k k' :=
  fun e he ↦ h e (Nat.lt_of_lt_of_le he hle)

/-- One more digit agrees. -/
theorem agree_succ {d : Nat} {k k' : K} :
    t.Agree (d + 1) k k' ↔ t.Agree d k k' ∧ t.digit k d = t.digit k' d := by
  constructor
  · intro h
    exact ⟨h.mono (Nat.le_succ d), h d (Nat.lt_succ_self d)⟩
  · rintro ⟨h, hd⟩ e he
    rcases Nat.eq_or_lt_of_le (Nat.le_of_lt_succ he) with rfl | hlt
    · exact hd
    · exact h e hlt

/-- A node depends on the digits above it. -/
theorem node_agree {d : Nat} {k k' : K} (h : t.Agree d k k') :
    t.node mem k d = t.node mem k' d := by
  induction d with
  | zero => rfl
  | succ d ih =>
    obtain ⟨habove, hdigit⟩ := agree_succ.mp h
    rw [node, node, ih habove, hdigit]

/-- Below a missing node there is none. -/
theorem node_none_mono {k : K} {d d' : Nat} (h : t.node mem k d = none) (hle : d ≤ d') :
    t.node mem k d' = none := by
  induction hle with
  | refl => exact h
  | step _ ih => rw [node, ih, Option.bind_none]

/-- Keys that agree have the same entry. -/
theorem entry_agree {k k' : K} (h : t.Agree (bottom + 1) k k') :
    t.entry mem bottom k = t.entry mem bottom k' := by
  obtain ⟨habove, hdigit⟩ := agree_succ.mp h
  rw [entry, entry, node_agree habove, hdigit]

/-- Two keys that share a slot at the bottom agree on all digits. -/
theorem Separate.agree (h : t.Separate mem bottom) {k k' : K} {p : A}
    (hk : t.node mem k bottom = some p) (hk' : t.node mem k' bottom = some p)
    (hdigit : t.digit k bottom = t.digit k' bottom) : t.Agree (bottom + 1) k k' :=
  agree_succ.mpr ⟨(h (Nat.le_refl _) (Nat.le_refl _) hk hk').2, hdigit⟩

/-! ### Memory outside of the tree -/

/-- The walk reads nodes only. -/
theorem node_frame {mem' : A → I → E} (h : ∀ p, t.IsNode mem bottom p → mem' p = mem p) (k : K)
    {d : Nat} (hd : d ≤ bottom) : t.node mem' k d = t.node mem k d := by
  induction d with
  | zero => rfl
  | succ d ih =>
    rw [node, node, ih (Nat.le_of_succ_le hd)]
    cases hnode : t.node mem k d with
    | none => rfl
    | some p =>
      rw [Option.bind_some, Option.bind_some, h p ⟨k, d, Nat.le_of_succ_le hd, hnode⟩]

/-- The entries are in nodes only. -/
theorem entry_frame {mem' : A → I → E} (h : ∀ p, t.IsNode mem bottom p → mem' p = mem p) (k : K) :
    t.entry mem' bottom k = t.entry mem bottom k := by
  rw [entry, entry, node_frame h k (Nat.le_refl _)]
  cases hnode : t.node mem k bottom with
  | none => rfl
  | some p => rw [Option.map_some, Option.map_some, h p ⟨k, bottom, Nat.le_refl _, hnode⟩]

/-- What is separate stays so if the nodes stay the same. -/
theorem Separate.of_node_eq {mem' : A → I → E} (h : t.Separate mem bottom)
    (heq : ∀ k d, d ≤ bottom → t.node mem' k d = t.node mem k d) : t.Separate mem' bottom := by
  intro d d' k k' p hd hd' hk hk'
  exact h hd hd' ((heq k d hd).symm.trans hk) ((heq k' d' hd').symm.trans hk')

/-- Equal walks meet the same nodes. -/
theorem isNode_of_node_eq {mem' : A → I → E}
    (heq : ∀ k d, d ≤ bottom → t.node mem' k d = t.node mem k d) {p : A} :
    t.IsNode mem' bottom p ↔ t.IsNode mem bottom p := by
  constructor
  · rintro ⟨k, d, hd, hnode⟩
    exact ⟨k, d, hd, (heq k d hd).symm.trans hnode⟩
  · rintro ⟨k, d, hd, hnode⟩
    exact ⟨k, d, hd, (heq k d hd).trans hnode⟩

/-! ### Writes -/

variable [DecidableEq A] [DecidableEq I]

/-- A write of one entry. -/
def store (mem : A → I → E) (p : A) (i : I) (e : E) : A → I → E :=
  update mem p (update (mem p) i e)

private theorem store_self (mem : A → I → E) (p : A) (i : I) (e : E) : store mem p i e p i = e := by
  rw [store, update_self, update_self]

private theorem store_of_ne {p q : A} (h : q ≠ p) (mem : A → I → E) (i : I) (e : E) :
    store mem p i e q = mem q :=
  update_of_ne h _ _

private theorem store_of_index_ne {i j : I} (h : j ≠ i) (mem : A → I → E) (p q : A) (e : E) :
    store mem p i e q j = mem q j := by
  by_cases hq : q = p
  · subst hq
    rw [store, update_self, update_of_ne h]
  · rw [store_of_ne hq]

/-- A write at the bottom leaves all nodes where they are. -/
theorem Separate.node_store (h : t.Separate mem bottom) {k : K} {p : A}
    (hk : t.node mem k bottom = some p) (i : I) (e : E) (k' : K) {d : Nat} (hd : d ≤ bottom) :
    t.node (store mem p i e) k' d = t.node mem k' d := by
  induction d with
  | zero => rfl
  | succ d ih =>
    rw [node, node, ih (Nat.le_of_succ_le hd)]
    cases hnode : t.node mem k' d with
    | none => rfl
    | some q =>
      have hne : q ≠ p := by
        rintro rfl
        obtain ⟨heq, -⟩ := h (Nat.le_of_succ_le hd) (Nat.le_refl _) hnode hk
        omega
      rw [Option.bind_some, Option.bind_some, store_of_ne hne]

/-- It changes the entry of one key. -/
theorem Separate.entry_store [∀ k k', Decidable (t.Agree (bottom + 1) k k')]
    (h : t.Separate mem bottom) {k : K} {p : A} (hk : t.node mem k bottom = some p) (e : E)
      (k' : K) :
    t.entry (store mem p (t.digit k bottom) e) bottom k' =
      if t.Agree (bottom + 1) k k' then some e else t.entry mem bottom k' := by
  rw [entry, entry, h.node_store hk _ _ k' (Nat.le_refl _)]
  by_cases hagree : t.Agree (bottom + 1) k k'
  · obtain ⟨habove, hdigit⟩ := agree_succ.mp hagree
    rw [if_pos hagree, ← node_agree habove, hk, Option.map_some, ← hdigit, store_self]
  · rw [if_neg hagree]
    cases hnode : t.node mem k' bottom with
    | none => rfl
    | some q =>
      rw [Option.map_some, Option.map_some]
      by_cases hdigit : t.digit k' bottom = t.digit k bottom
      · have hne : q ≠ p := by
          rintro rfl
          exact hagree (h.agree hk hnode hdigit.symm)
        rw [store_of_ne hne]
      · rw [store_of_index_ne hdigit]

/-! ### New nodes -/

/-- A block of memory is cleared, and linked in as a node. -/
def link (mem : A → I → E) (zero : E) (p : A) (i : I) (e : E) (q : A) : A → I → E :=
  store (update mem q fun _ ↦ zero) p i e

/-- What is needed to link a node in: a node with an entry that leads nowhere, a block that is not
a node, and an entry that leads to it. -/
structure Links (t : Radix A I E K) (mem : A → I → E) (bottom : Nat) (zero : E) (k : K) (d : Nat)
    (p : A) (e : E) (q : A) : Prop where
  depth : d < bottom
  node : t.node mem k d = some p
  missing : t.child (mem p (t.digit k d)) = none
  fresh : ¬ t.IsNode mem bottom q
  child : t.child e = some q
  zero : t.child zero = none

variable {zero : E} {k : K} {d : Nat} {p q : A} {e : E}

omit [DecidableEq A] [DecidableEq I] in
/-- The new node is not the one that links to it. -/
theorem Links.ne (h : Links t mem bottom zero k d p e q) : q ≠ p := by
  rintro rfl
  exact h.fresh ⟨k, d, Nat.le_of_lt h.depth, h.node⟩

omit [DecidableEq A] [DecidableEq I] in
/-- Nothing was below the entry. -/
theorem Links.below (h : Links t mem bottom zero k d p e q) {k' : K} (hagree : t.Agree (d + 1) k k')
    {d' : Nat} (hd' : d < d') : t.node mem k' d' = none := by
  have hnode : t.node mem k (d + 1) = none := by
    rw [Radix.node, h.node, Option.bind_some, h.missing]
  exact node_none_mono ((node_agree hagree).symm.trans hnode) hd'

/-- The new node is the only one that there is more. -/
theorem Links.node_link [∀ k k', Decidable (t.Agree (d + 1) k k')]
    (h : Links t mem bottom zero k d p e q) (hsep : t.Separate mem bottom) (k' : K) {d' : Nat}
    (hd' : d' ≤ bottom) : t.node (link mem zero p (t.digit k d) e q) k' d' =
      if d' = d + 1 ∧ t.Agree (d + 1) k k' then some q else t.node mem k' d' := by
  induction d' with
  | zero => rw [if_neg (fun h ↦ Nat.succ_ne_zero d h.1.symm)]; rfl
  | succ d' ih =>
    have hle : d' ≤ bottom := Nat.le_of_succ_le hd'
    -- a node that there was is not the new one, and it is the one written to only at that depth
    have hold : ∀ r, t.node mem k' d' = some r → ¬ (d' = d ∧ t.Agree (d + 1) k k') →
        link mem zero p (t.digit k d) e q r (t.digit k' d') = mem r (t.digit k' d') := by
      intro r hr hne
      have hrq : r ≠ q := by
        rintro rfl
        exact h.fresh ⟨k', d', hle, hr⟩
      by_cases hrp : r = p
      · subst hrp
        obtain ⟨rfl, habove⟩ := hsep (Nat.le_of_lt h.depth) hle h.node hr
        have hdigit : t.digit k' d ≠ t.digit k d := fun heq ↦
          hne ⟨rfl, agree_succ.mpr ⟨habove, heq.symm⟩⟩
        rw [link, store_of_index_ne hdigit, update_of_ne hrq]
      · rw [link, store_of_ne hrp, update_of_ne hrq]
    rw [Radix.node, ih hle]
    by_cases hnew : d' = d + 1 ∧ t.Agree (d + 1) k k'
    · rw [if_pos hnew, if_neg (by omega), Option.bind_some, link, store_of_ne h.ne,
        update_self, h.zero, h.below hnew.2 (by omega)]
    rw [if_neg hnew]
    by_cases hhere : d' = d ∧ t.Agree (d + 1) k k'
    · obtain ⟨rfl, hagree⟩ := hhere
      obtain ⟨habove, hdigit⟩ := agree_succ.mp hagree
      rw [if_pos ⟨rfl, hagree⟩, ← node_agree habove, h.node, Option.bind_some, ← hdigit, link,
        store_self, h.child]
    · rw [if_neg (fun hsucc ↦ hhere ⟨Nat.succ.inj hsucc.1, hsucc.2⟩), Radix.node]
      cases hnode : t.node mem k' d' with
      | none => rfl
      | some r => rw [Option.bind_some, Option.bind_some, hold r hnode hhere]

/-- No two prefixes lead to the new node. -/
theorem Links.separate (h : Links t mem bottom zero k d p e q) (hsep : t.Separate mem bottom) :
    t.Separate (link mem zero p (t.digit k d) e q) bottom := by
  classical
  intro d1 d2 k1 k2 r hd1 hd2 hk1 hk2
  rw [h.node_link hsep _ hd1] at hk1
  rw [h.node_link hsep _ hd2] at hk2
  split at hk1
  next hnew1 =>
    cases hk1
    split at hk2
    next hnew2 =>
      obtain ⟨rfl, hagree1⟩ := hnew1
      obtain ⟨rfl, hagree2⟩ := hnew2
      exact ⟨rfl, hagree1.symm.trans hagree2⟩
    next => exact absurd ⟨k2, d2, hd2, hk2⟩ h.fresh
  next =>
    split at hk2
    next =>
      cases hk2
      exact absurd ⟨k1, d1, hd1, hk1⟩ h.fresh
    next => exact hsep hd1 hd2 hk1 hk2

/-- One node is new. -/
theorem Links.isNode (h : Links t mem bottom zero k d p e q) (hsep : t.Separate mem bottom)
    {r : A} :
    t.IsNode (link mem zero p (t.digit k d) e q) bottom r → t.IsNode mem bottom r ∨ r = q := by
  classical
  rintro ⟨k', d', hd', hnode⟩
  rw [h.node_link hsep _ hd'] at hnode
  split at hnode
  next => exact .inr (Option.some.inj hnode).symm
  next => exact .inl ⟨k', d', hd', hnode⟩

/-- The new node holds nothing. -/
theorem Links.entry_link (h : Links t mem bottom zero k d p e q) (hsep : t.Separate mem bottom)
    {valid : E → Bool} (hzero : valid zero = false) (k' : K) :
    (t.entry (link mem zero p (t.digit k d) e q) bottom k').filter valid =
      (t.entry mem bottom k').filter valid := by
  classical
  rw [entry, entry, h.node_link hsep _ (Nat.le_refl _)]
  by_cases hnew : bottom = d + 1 ∧ t.Agree (d + 1) k k'
  · rw [if_pos hnew, h.below hnew.2 (by omega), Option.map_some, link, store_of_ne h.ne,
      update_self, Option.filter_some_neg hzero]
    rfl
  · rw [if_neg hnew]
    cases hnode : t.node mem k' bottom with
    | none => rfl
    | some r =>
      have hrq : r ≠ q := by
        rintro rfl
        exact h.fresh ⟨k', bottom, Nat.le_refl _, hnode⟩
      have hrp : r ≠ p := by
        rintro rfl
        have hdepth := hsep (Nat.le_of_lt h.depth) (Nat.le_refl _) h.node hnode
        exact absurd hdepth.1 (Nat.ne_of_lt h.depth)
      rw [Option.map_some, Option.map_some, link, store_of_ne hrp, update_of_ne hrq]

end Radix

end Xv6K210.Base
