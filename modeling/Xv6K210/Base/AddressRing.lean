import Mathlib.Logic.Function.Basic
import Mathlib.Tactic.Common

/-!
# Circular lists in the order of addresses

Library `Base`. A ring begins at a base, goes through the addresses of a set in ascending order, and
comes back. Where a successor leads is said for each address alone, so that an address is put in or
taken out by a change of one or two successors, and the way round the ring ends because the distance
to its goal goes down.
-/

namespace Xv6K210.Base

open Function

/-- The successor of an address: the next one of the set, or the base behind the last. -/
def Succ (F : Nat → Prop) (base x y : Nat) : Prop :=
  (F y ∧ x < y ∧ ∀ z, F z → x < z → y ≤ z) ∨ (y = base ∧ ∀ z, F z → z ≤ x)

/-- A circular list through a base and the addresses of a set, which lie behind it. -/
structure Ring (F : Nat → Prop) (base : Nat) (next : Nat → Nat) : Prop where
  above : ∀ a, F a → base < a
  succ : ∀ x, x = base ∨ F x → Succ F base x (next x)

namespace Ring

variable {F : Nat → Prop} {base : Nat} {next : Nat → Nat}

/-- A ring depends on the successors of its own addresses. -/
theorem congr (h : Ring F base next) {next' : Nat → Nat}
    (heq : ∀ x, x = base ∨ F x → next' x = next x) : Ring F base next' := by
  refine ⟨h.above, fun x hx ↦ ?_⟩
  rw [heq x hx]
  exact h.succ x hx

/-- The ring is closed. -/
theorem next_node (h : Ring F base next) {x : Nat} (hx : x = base ∨ F x) :
    next x = base ∨ F (next x) := by
  rcases h.succ x hx with ⟨hF, -⟩ | ⟨hbase, -⟩
  · exact .inr hF
  · exact .inl hbase

/-- The base has the lowest address. -/
theorem base_le (h : Ring F base next) {x : Nat} (hx : x = base ∨ F x) : base ≤ x := by
  rcases hx with rfl | hx
  · exact Nat.le_refl _
  · exact Nat.le_of_lt (h.above x hx)

/-- An address of the set has one predecessor. -/
theorem pred_unique (h : Ring F base next) {x z : Nat} (hx : x = base ∨ F x) (hz : z = base ∨ F z)
    (hF : F (next x)) (heq : next z = next x) : z = x := by
  have hbase := h.above _ hF
  have hxb := h.base_le hx
  have hzb := h.base_le hz
  rcases h.succ x hx with ⟨-, hlt, hmin⟩ | ⟨hx', -⟩
  · rcases h.succ z hz with ⟨-, hlt', hmin'⟩ | ⟨hz', -⟩
    · rcases Nat.lt_trichotomy z x with hzx | hzx | hzx
      · have hFx : F x := hx.resolve_left (by omega)
        have := hmin' x hFx hzx
        omega
      · exact hzx
      · have hFz : F z := hz.resolve_left (by omega)
        have := hmin z hFz hzx
        omega
    · omega
  · omega

/-- An address is put in behind the last one below it. -/
theorem insert (h : Ring F base next) {p q : Nat} (hp : p = base ∨ F p) (hpq : p < q)
    (hgap : ∀ z, F z → p < z → q < z) :
    Ring (fun x ↦ F x ∨ x = q) base (update (update next q (next p)) p q) := by
  have hpb := h.base_le hp
  refine ⟨?_, ?_⟩
  · rintro a (ha | rfl)
    · exact h.above a ha
    · omega
  · intro x hx
    by_cases hxp : x = p
    · subst hxp
      rw [update_self]
      refine .inl ⟨.inr rfl, hpq, ?_⟩
      rintro z (hz | rfl) hlt
      · exact Nat.le_of_lt (hgap z hz hlt)
      · exact Nat.le_refl _
    rw [update_of_ne hxp]
    by_cases hxq : x = q
    · subst hxq
      rw [update_self]
      rcases h.succ p hp with ⟨hF, hlt, hmin⟩ | ⟨hbase, hmax⟩
      · refine .inl ⟨.inl hF, hgap _ hF hlt, ?_⟩
        rintro z (hz | rfl) hxz
        · exact hmin z hz (Nat.lt_trans hpq hxz)
        · exact absurd hxz (Nat.lt_irrefl _)
      · refine .inr ⟨hbase, ?_⟩
        rintro z (hz | rfl)
        · exact Nat.le_trans (hmax z hz) (Nat.le_of_lt hpq)
        · exact Nat.le_refl _
    rw [update_of_ne hxq]
    have hx' : x = base ∨ F x := by
      rcases hx with hx | hx | hx
      · exact .inl hx
      · exact .inr hx
      · exact absurd hx hxq
    rcases h.succ x hx' with ⟨hF, hlt, hmin⟩ | ⟨hbase, hmax⟩
    · refine .inl ⟨.inl hF, hlt, ?_⟩
      rintro z (hz | rfl) hxz
      · exact hmin z hz hxz
      · -- below `q` there is nothing behind `p`, so `p` lies between
        rcases Nat.lt_or_ge p x with hpx | hpx
        · have hFx : F x := hx'.resolve_left (by omega)
          have := hgap x hFx hpx
          omega
        · have hxb := h.base_le hx'
          have hFp : F p := hp.resolve_left (by omega)
          have := hmin p hFp (by omega)
          omega
    · refine .inr ⟨hbase, ?_⟩
      rintro z (hz | rfl)
      · exact hmax z hz
      · rcases Nat.lt_or_ge p x with hpx | hpx
        · have hxb := h.base_le hx'
          have hFx : F x := hx'.resolve_left (by omega)
          exact Nat.le_of_lt (hgap x hFx hpx)
        · have hxb := h.base_le hx'
          have hFp : F p := hp.resolve_left (by omega)
          have := hmax p hFp
          omega

/-- An address is taken out. -/
theorem remove (h : Ring F base next) {x : Nat} (hx : x = base ∨ F x) (hF : F (next x)) :
    Ring (fun z ↦ F z ∧ z ≠ next x) base (update next x (next (next x))) := by
  refine ⟨fun a ha ↦ h.above a ha.1, fun z hz ↦ ?_⟩
  have hxb := h.base_le hx
  have hbase := h.above _ hF
  have hz' : z = base ∨ F z := hz.imp_right And.left
  have hlt : x < next x := by
    rcases h.succ x hx with ⟨-, hlt, -⟩ | ⟨heq, -⟩
    · exact hlt
    · omega
  by_cases hzx : z = x
  · subst hzx
    rw [update_self]
    rcases h.succ (next z) (.inr hF) with ⟨hF', hlt', hmin'⟩ | ⟨hb, hmax⟩
    · refine .inl ⟨⟨hF', by omega⟩, by omega, fun w hw hzw ↦ hmin' w hw.1 ?_⟩
      rcases h.succ z hx with ⟨-, -, hmin⟩ | ⟨heq, -⟩
      · have := hmin w hw.1 hzw
        exact Nat.lt_of_le_of_ne this (Ne.symm hw.2)
      · omega
    · refine .inr ⟨hb, fun w hw ↦ ?_⟩
      have hle := hmax w hw.1
      rcases Nat.lt_or_ge z w with hzw | hzw
      · rcases h.succ z hx with ⟨-, -, hmin⟩ | ⟨heq, -⟩
        · have := hmin w hw.1 hzw
          exact absurd (Nat.le_antisymm hle this) hw.2
        · omega
      · exact hzw
  rw [update_of_ne hzx]
  rcases h.succ z hz' with ⟨hFz, hltz, hminz⟩ | ⟨hb, hmax⟩
  · refine .inl ⟨⟨hFz, fun heq ↦ hzx (h.pred_unique hx hz' hF heq)⟩, hltz, ?_⟩
    exact fun w hw hzw ↦ hminz w hw.1 hzw
  · exact .inr ⟨hb, fun w hw ↦ hmax w hw.1⟩

/-- Below an address behind the base there is a last one. -/
theorem exists_pred (F : Nat → Prop) {base q : Nat} (hq : base < q) :
    ∃ p, (p = base ∨ F p) ∧ p < q ∧ ∀ z, F z → z < q → z ≤ p := by
  induction q with
  | zero => exact absurd hq (Nat.not_lt_zero _)
  | succ q ih =>
    by_cases hF : F q
    · exact ⟨q, .inr hF, Nat.lt_succ_self q, fun z _ hz ↦ Nat.le_of_lt_succ hz⟩
    · rcases Nat.eq_or_lt_of_le (Nat.le_of_lt_succ hq) with rfl | hlt
      · exact ⟨base, .inl rfl, hq, fun z _ hz ↦ Nat.le_of_lt_succ hz⟩
      · obtain ⟨p, hp, hpq, hmax⟩ := ih hlt
        refine ⟨p, hp, Nat.lt_succ_of_lt hpq, fun z hz hlt' ↦ ?_⟩
        have hne : z ≠ q := by
          rintro rfl
          exact hF hz
        exact hmax z hz (by omega)

/-! ### The way round -/

/-- How far it is from an address to a goal, round a ring that ends below a bound. -/
def dist (bound goal x : Nat) : Nat := if x ≤ goal then goal - x else bound - x + goal + 1

/-- Only the goal is at distance 0. -/
theorem dist_eq_zero {bound goal x : Nat} : dist bound goal x = 0 ↔ x = goal := by
  unfold dist
  split
  · omega
  · omega

/-- Addresses at the same distance are the same. -/
theorem dist_inj {bound goal x y : Nat} (hx : x ≤ bound) (hy : y ≤ bound)
    (h : dist bound goal x = dist bound goal y) : x = y := by
  unfold dist at h
  split at h
  · split at h
    · omega
    · omega
  · split at h
    · omega
    · omega

/-- The successor is nearer to the goal. -/
theorem dist_next_lt (h : Ring F base next) {bound goal x : Nat} (hbound : ∀ z, F z → z ≤ bound)
    (hbase : base ≤ bound) (hgoal : goal = base ∨ F goal) (hx : x = base ∨ F x) (hne : x ≠ goal) :
    dist bound goal (next x) < dist bound goal x := by
  have hgb := h.base_le hgoal
  have hxb := h.base_le hx
  have hxbound : x ≤ bound := by
    rcases hx with rfl | hx
    · exact hbase
    · exact hbound x hx
  unfold dist
  rcases h.succ x hx with ⟨hF, hlt, hmin⟩ | ⟨hnext, hmax⟩
  · have hnb := hbound _ hF
    by_cases hxg : x ≤ goal
    · have hFg : F goal := hgoal.resolve_left (by omega)
      have := hmin goal hFg (by omega)
      rw [if_pos this, if_pos hxg]
      omega
    · rw [if_neg (by omega), if_neg hxg]
      omega
  · have hxg : goal ≤ x := by
      rcases hgoal with rfl | hgoal
      · exact hxb
      · exact hmax goal hgoal
    rw [hnext, if_pos hgb, if_neg (by omega)]
    omega

/-- What lies nearer to the goal is not passed by. -/
theorem dist_next_ge (h : Ring F base next) {bound goal x t : Nat} (hbound : ∀ z, F z → z ≤ bound)
    (hgoal : goal = base ∨ F goal) (hx : x = base ∨ F x) (ht : t = base ∨ F t)
    (hlt : dist bound goal t < dist bound goal x) :
      dist bound goal t ≤ dist bound goal (next x) := by
  have hgb := h.base_le hgoal
  have hxb := h.base_le hx
  have htb := h.base_le ht
  unfold dist at hlt ⊢
  rcases h.succ x hx with ⟨hF, hltx, hmin⟩ | ⟨hnext, hmax⟩
  · have hnb := hbound _ hF
    have hmint : x < t → next x ≤ t := fun hxt ↦ hmin t (ht.resolve_left (by omega)) hxt
    have hming : x < goal → next x ≤ goal := fun hxg ↦ hmin goal (hgoal.resolve_left (by omega)) hxg
    split at hlt
    · split at hlt
      · rw [if_pos ‹_›, if_pos (hming (by omega))]
        have := hmint (by omega)
        omega
      · rw [if_pos ‹_›]
        split
        · omega
        · omega
    · split at hlt
      · omega
      · rw [if_neg ‹_›]
        have := hmint (by omega)
        rw [if_neg (by omega)]
        omega
  · have hmaxt : t ≤ x := by
      rcases ht with rfl | ht
      · exact hxb
      · exact hmax t ht
    rw [hnext, if_pos hgb]
    split
    · omega
    · split at hlt
      · omega
      · split at hlt
        · omega
        · omega

/-- Behind the goal all others are ahead. -/
theorem dist_le_first (h : Ring F base next) {bound goal t : Nat} (hbound : ∀ z, F z → z ≤ bound)
    (hgoal : goal = base ∨ F goal) (ht : t = base ∨ F t) :
    dist bound goal t ≤ dist bound goal (next goal) := by
  have hgb := h.base_le hgoal
  have htb := h.base_le ht
  unfold dist
  rcases h.succ goal hgoal with ⟨hF, hlt, hmin⟩ | ⟨hnext, hmax⟩
  · have hnb := hbound _ hF
    have hmint : goal < t → next goal ≤ t := fun hgt ↦ hmin t (ht.resolve_left (by omega)) hgt
    rw [if_neg (show ¬ next goal ≤ goal by omega)]
    split
    · omega
    · have := hmint (by omega)
      omega
  · have hmaxt : t ≤ goal := by
      rcases ht with rfl | ht
      · exact hgb
      · exact hmax t ht
    rw [hnext, if_pos hgb, if_pos hmaxt]
    omega

end Ring

end Xv6K210.Base
