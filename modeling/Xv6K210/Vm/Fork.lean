import Xv6K210.Vm.NewSpace

/-!
# Fork

`fork` marks the writable private entries of the parent and copies them to the
child. Between `uvmcopy` and the final `upg2ukpg` the kernel table of the parent is out of date
on the heap and the stack, and nowhere else. The child ends with an address space of its own, and
the parent with its old one, whether `fork` succeeds or not.
-/

namespace Xv6K210.Vm

open Xv6K210.Base Prog Function

variable {P O F : Type}

/-! ### Tables that are out of date -/

/-- The kernel entries for user memory stand for user entries, and outside the pages `ns` they
are copies of them. -/
def MirrorOff (ns : List Nat) (u k : Nat → Option Pte) : Prop :=
  ∀ n e, UserPage n → k n = some e → ∃ e', u n = some e' ∧ (n ∉ ns → e = e'.mirror)

/-- A mirror off some pages. -/
theorem Mirror.off {u k : Nat → Option Pte} (h : Mirror u k) (ns : List Nat) :
    MirrorOff ns u k := by
  intro n e hn hk
  obtain ⟨e', hu, he⟩ := h n e hn hk
  exact ⟨e', hu, fun _ ↦ he⟩

/-- User entries change within the pages that are out of date. -/
theorem MirrorOff.change {ns : List Nat} {u u' k : Nat → Option Pte} (h : MirrorOff ns u k)
    (hsome : ∀ n, (u n).isSome → (u' n).isSome) (hout : ∀ n, n ∉ ns → u' n = u n) :
    MirrorOff ns u' k := by
  intro n e hn hk
  obtain ⟨e', hu, he⟩ := h n e hn hk
  by_cases hns : n ∈ ns
  · obtain ⟨e'', hu'⟩ := Option.isSome_iff_exists.mp (hsome n (by rw [hu]; rfl))
    exact ⟨e'', hu', fun hnot ↦ absurd hns hnot⟩
  · exact ⟨e', by rw [hout n hns, hu], he⟩

/-- An entry is stored with its copy. -/
theorem MirrorOff.put {ns : List Nat} {u k : Nat → Option Pte} (h : MirrorOff ns u k) (n : Nat)
    (e : Pte) :
    MirrorOff ns (update u n (some e)) (update k n (some e.mirror)) := by
  intro m x hm hx
  rw [update_apply] at hx ⊢
  split_ifs at hx ⊢
  · cases hx
    exact ⟨e, rfl, fun _ ↦ rfl⟩
  · exact h m x hm hx

/-- A new user entry where the kernel table has none. -/
theorem MirrorOff.putUser {ns : List Nat} {u k : Nat → Option Pte} (h : MirrorOff ns u k)
    {n : Nat} (hn : u n = none) (e : Pte) : MirrorOff ns (update u n (some e)) k := by
  intro m x hm hx
  obtain ⟨e', hu, he⟩ := h m x hm hx
  refine ⟨e', ?_, he⟩
  rw [update_of_ne, hu]
  rintro rfl
  rw [hn] at hu
  cases hu

/-- Pages are copied and are up to date afterwards. -/
theorem MirrorOff.copy {ms ns : List Nat} {u k : Nat → Option Pte} (h : MirrorOff ns u k)
    (hns : ∀ n ∈ ns, n ∈ ms) :
    Mirror u (fun n ↦ if n ∈ ms then ((u n).map Pte.mirror).or (k n) else k n) := by
  apply Mirror.of_copy
  · intro n e hn hms hk
    obtain ⟨e', hu, he⟩ := h n e hn hk
    exact ⟨e', hu, he fun hmem ↦ hms (hns n hmem)⟩
  · intro n hn _ hk
    obtain ⟨e, hk⟩ := Option.isSome_iff_exists.mp hk
    obtain ⟨e', hu, -⟩ := h n e hn hk
    rw [hu]
    rfl

/-- An address space whose kernel table is out of date on the pages `ns`, without what must be
resident. -/
structure Partial (ns : List Nat) (q : Proc P O F) (u k : Nat → Option Pte) : Prop where
  layout : Layout q.sz q.vmas
  foot : Foot q u
  mirror : MirrorOff ns u k

/-- A space with stale pages. -/
theorem Space.stale {q : Proc P O F} {u k : Nat → Option Pte} (h : Space q u k)
    (ns : List Nat) : Partial ns q u k :=
  ⟨h.layout, h.foot, h.mirror.off ns⟩

/-- User entries change within the pages that are out of date, and none is added. -/
theorem Partial.change {ns : List Nat} {q : Proc P O F} {u u' k : Nat → Option Pte}
    (h : Partial ns q u k) (hsome : ∀ n, (u' n).isSome = (u n).isSome)
    (hout : ∀ n, n ∉ ns → u' n = u n) : Partial ns q u' k := by
  refine ⟨h.layout, ?_, h.mirror.change (fun n hn ↦ by rw [hsome, hn]) hout⟩
  intro n e hn hu
  have hs : (u n).isSome := by
    rw [← hsome, hu]
    rfl
  obtain ⟨e', hu'⟩ := Option.isSome_iff_exists.mp hs
  exact h.foot n e' hn hu'

/-- An entry put in both tables. -/
theorem Partial.put {ns : List Nat} {q : Proc P O F} {u k : Nat → Option Pte}
    (h : Partial ns q u k) {n : Nat} (hc : UserPage n → Covered q n) (e : Pte) :
    Partial ns q (update u n (some e)) (update k n (some e.mirror)) := by
  refine ⟨h.layout, ?_, h.mirror.put n e⟩
  intro m x hm hx
  rw [update_apply] at hx
  split_ifs at hx with hmn
  · subst hmn
    exact hc hm
  · exact h.foot m x hm hx

/-- More entries keep a mapping resident. -/
theorem Resident.change {vmas : Fin nvma → Option (Vma O)} {u u' : Nat → Option Pte}
    (h : Resident vmas u) (hsome : ∀ n, (u n).isSome → (u' n).isSome) : Resident vmas u' := by
  intro i v hv hops n hc
  exact hsome n (h i v hv hops n hc)

/-! ### Copying a range -/

/-- What `fork` makes of a private entry: a writable one is shared for copying on write. -/
def Pte.mark (e : Pte) : Pte := if e.perm.w then ⟨e.pa, e.perm.share⟩ else e

section

variable [DecidableEq P]

/-- A round of `uvmcopy_range`. -/
theorem uvmcopyPage_spec (w : World P O F) (old new : Tbl P) (n : Nat) :
    Ensures (uvmcopyPage old new n) w fun ok w' ↦
      (ok = true ∧ w.leaf old n = none ∧ Eff w w' w.leaf) ∨ ∃ e, w.leaf old n = some e ∧
        ((ok = true ∧ Eff w w' ((w.leaf.put old n (some e.mark)).put new n (some e.mark)) ∧
            w.leaf.put old n (some e.mark) new n = none) ∨
          (ok = false ∧ Eff w w' (w.leaf.put old n (some e.mark)))) := by
  unfold uvmcopyPage
  apply (walk_spec w old n).bind
  rintro r w0 ⟨rfl, rfl⟩
  cases he : w0.leaf old n with
  | none =>
    rw [ensures_pure]
    exact .inl ⟨rfl, rfl, .refl w0⟩
  | some e =>
    have hmark : ∀ w1 : World P O F, Eff w0 w1 (w0.leaf.put old n (some e.mark)) →
        Ensures (do
          if ← mappages new n e.pa (if e.perm.w then e.perm.share else e.perm) then
            kaddquota e.pa
            pure true
          else
            pure false) w1 fun ok w' ↦
          (ok = true ∧ Eff w0 w' ((w0.leaf.put old n (some e.mark)).put new n (some e.mark)) ∧
              w0.leaf.put old n (some e.mark) new n = none) ∨
            (ok = false ∧ Eff w0 w' (w0.leaf.put old n (some e.mark))) := by
      intro w1 h1
      have hperm : (⟨e.pa, if e.perm.w then e.perm.share else e.perm⟩ : Pte) = e.mark := by
        unfold Pte.mark
        split_ifs <;> rfl
      apply (mappages_spec w1 new n e.pa _).bind
      rintro ok w2 (⟨rfl, hnone, h2⟩ | ⟨rfl, h2⟩)
      · rw [h1.leaf] at h2 hnone
        rw [hperm] at h2
        simp only [if_true, ensures_bind, ensures_pure]
        apply (kaddquota_quiet w2 e.pa).mono
        intro _ w3 h3
        have h3' := h3.eff
        rw [h2.leaf] at h3'
        exact .inl ⟨trivial, (h1.trans h2).trans h3', hnone⟩
      · rw [h1.leaf] at h2
        simp only [Bool.false_eq_true, if_false, ensures_pure]
        exact .inr ⟨trivial, h1.trans h2⟩
    rw [ensures_bind, ensures_doIf]
    constructor
    · intro hw
      apply (setLeaf_spec w0 old n _).mono
      intro _ w1 h1
      refine (hmark w1 ?_).mono fun _ _ h ↦ .inr ⟨e, rfl, h⟩
      rw [show e.mark = ⟨e.pa, if e.perm.w then e.perm.share else e.perm⟩ by
        simp [Pte.mark, hw]]
      exact h1
    · intro hw
      refine (hmark w0 ?_).mono fun _ _ h ↦ .inr ⟨e, rfl, h⟩
      rw [show e.mark = e by simp [Pte.mark, hw], ← he, Leaves.put_self]
      exact .refl w0

end

/-! ### The two processes -/

/-- Of the processes only `c` changed, and of the tables only those of `p` and `c`. -/
structure Pair (p c : P) (w w' : World P O F) : Prop where
  proc : ∀ q, q ≠ c → w'.proc q = w.proc q
  leaf : ∀ t, t ≠ .user p → t ≠ .kern p → t ≠ .user c → t ≠ .kern c → w'.leaf t = w.leaf t
  there : ∀ t, t ≠ .user c → t ≠ .kern c → w'.there t = w.there t

/-- Nothing happens to the pair. -/
theorem Pair.refl (p c : P) (w : World P O F) : Pair p c w w :=
  ⟨fun _ _ ↦ rfl, fun _ _ _ _ _ ↦ rfl, fun _ _ _ ↦ rfl⟩

/-- Steps on the pair compose. -/
theorem Pair.trans {p c : P} {w w' w'' : World P O F} (h : Pair p c w w')
    (h' : Pair p c w' w'') : Pair p c w w'' := by
  constructor
  · intro q hq
    rw [h'.proc q hq, h.proc q hq]
  · intro t h1 h2 h3 h4
    rw [h'.leaf t h1 h2 h3 h4, h.leaf t h1 h2 h3 h4]
  · intro t h1 h2
    rw [h'.there t h1 h2, h.there t h1 h2]

/-- A step on the child only. -/
theorem Only.pair {p c : P} {w w' : World P O F} (h : Only c w w') : Pair p c w w' :=
  ⟨h.proc, fun t _ _ hu hk ↦ h.leaf t hu hk, h.there⟩

/-- An effect on tables of the pair. -/
theorem Eff.pair {p c : P} {w w' : World P O F} {L : Leaves P} (h : Eff w w' L)
    (hL : ∀ t, t ≠ .user p → t ≠ .kern p → t ≠ .user c → t ≠ .kern c → L t = w.leaf t) :
    Pair p c w w' :=
  ⟨fun q _ ↦ by rw [h.core.proc], fun t h1 h2 h3 h4 ↦ by rw [h.leaf, hL t h1 h2 h3 h4],
    fun t _ _ ↦ h.core.there t⟩

/-- The parent, while its kernel table is out of date on the pages `ns`. -/
structure Parent (ns : List Nat) (p : P) (w : World P O F) : Prop where
  space : Partial ns (w.proc p) (w.leaf (.user p)) (w.leaf (.kern p))
  resident : Resident (w.proc p).vmas (w.leaf (.user p))

/-- The parent before the first page. -/
theorem SpaceAt.parent {p : P} {w : World P O F} (h : SpaceAt w p) (ns : List Nat) :
    Parent ns p w :=
  ⟨Space.stale h ns, Space.resident h⟩

/-- The child is not concerned. -/
theorem Parent.only {ns : List Nat} {p c : P} {w w' : World P O F} (h : Parent ns p w)
    (hpc : p ≠ c) (h' : Only c w w') : Parent ns p w' := by
  have hu : w'.leaf (.user p) = w.leaf (.user p) := h'.leaf _ (by simpa using hpc) (by simp)
  have hk : w'.leaf (.kern p) = w.leaf (.kern p) := h'.leaf _ (by simp) (by simpa using hpc)
  constructor
  · rw [hu, hk, h'.proc p hpc]
    exact h.space
  · rw [hu, h'.proc p hpc]
    exact h.resident

/-- Entries of the parent change within the pages that are out of date. -/
theorem Parent.change {ns : List Nat} {p : P} {w w' : World P O F} (h : Parent ns p w)
    (hproc : w'.proc p = w.proc p) (hkern : w'.leaf (.kern p) = w.leaf (.kern p))
    (hsome : ∀ n, (w'.leaf (.user p) n).isSome = (w.leaf (.user p) n).isSome)
    (hout : ∀ n, n ∉ ns → w'.leaf (.user p) n = w.leaf (.user p) n) : Parent ns p w' := by
  constructor
  · rw [hkern, hproc]
    exact h.space.change hsome hout
  · rw [hproc]
    exact h.resident.change fun n hn ↦ by rw [hsome, hn]

/-- The child, while it is filled: it has no page that the parent does not have. -/
structure Child (ns : List Nat) (p c : P) (w : World P O F) : Prop where
  user : w.there (.user c)
  kern : w.there (.kern c)
  dom : ∀ n, UserPage n → (w.leaf (.user c) n).isSome → (w.leaf (.user p) n).isSome
  mirror : MirrorOff ns (w.leaf (.user c)) (w.leaf (.kern c))

/-- The child before the first page. -/
theorem Newborn.child {p c : P} {w : World P O F} (h : Newborn c w) (ns : List Nat) :
    Child ns p c w := by
  refine ⟨h.user.there, h.kern.there, ?_, ?_⟩
  · intro n hn hs
    rw [h.user.leaf n hn] at hs
    cases hs
  · intro n e hn hk
    rw [h.kern.leaf n hn] at hk
    cases hk

/-- The entries of parent and child change together. -/
theorem Child.change {ns : List Nat} {p c : P} {w w' : World P O F} (h : Child ns p c w)
    (hcore : Core w w')
    (hdom : ∀ n, UserPage n → (w'.leaf (.user c) n).isSome →
      (w.leaf (.user c) n).isSome ∨ (w.leaf (.user p) n).isSome)
    (hsome : ∀ n, (w'.leaf (.user p) n).isSome = (w.leaf (.user p) n).isSome)
    (hmirror : MirrorOff ns (w'.leaf (.user c)) (w'.leaf (.kern c))) : Child ns p c w' := by
  refine ⟨by rw [hcore.there, h.user], by rw [hcore.there, h.kern], ?_, hmirror⟩
  intro n hn hs
  rw [hsome]
  rcases hdom n hn hs with hold | hnew
  · exact h.dom n hn hold
  · exact hnew

/-- Pages are copied: the parent keeps its pages, and so does the child. -/
structure Copying (p c : P) (w w' : World P O F) : Prop where
  proc : w'.proc = w.proc
  parent : ∀ n, (w'.leaf (.user p) n).isSome = (w.leaf (.user p) n).isSome
  child : ∀ n, (w.leaf (.user c) n).isSome → (w'.leaf (.user c) n).isSome

/-- Nothing is copied. -/
theorem Copying.refl (p c : P) (w : World P O F) : Copying p c w w :=
  ⟨rfl, fun _ ↦ rfl, fun _ h ↦ h⟩

/-- Copies compose. -/
theorem Copying.trans {p c : P} {w w' w'' : World P O F} (h : Copying p c w w')
    (h' : Copying p c w' w'') : Copying p c w w'' :=
  ⟨by rw [h'.proc, h.proc], fun n ↦ by rw [h'.parent, h.parent],
    fun n hn ↦ h'.child n (h.child n hn)⟩

private theorem isSome_update {u : Nat → Option Pte} {n : Nat} (h : (u n).isSome) (e' : Pte)
    (m : Nat) :
    (update u n (some e') m).isSome = (u m).isSome := by
  rw [update_apply]
  split_ifs with hmn
  · rw [hmn, h]
    rfl
  · rfl

variable [DecidableEq P]

/-- A page of the heap or the stack is shared. -/
theorem uvmcopyPage_forking {ns : List Nat} {p c : P} {w : World P O F} {n : Nat} (hpc : p ≠ c)
    (hn : n ∈ ns) (hp : Parent ns p w) (hc : Child ns p c w) :
    Ensures (uvmcopyPage (.user p) (.user c) n) w fun ok w' ↦
      Pair p c w w' ∧ Parent ns p w' ∧ (ok = true → Child ns p c w' ∧ Copying p c w w') := by
  have hne : Tbl.user p ≠ Tbl.user c := by simpa using hpc
  apply (uvmcopyPage_spec w (.user p) (.user c) n).mono
  rintro ok w' (⟨rfl, -, h⟩ | ⟨e, he, ⟨rfl, h, hnone⟩ | ⟨rfl, h⟩⟩)
  · have hu : ∀ t, w'.leaf t = w.leaf t := fun t ↦ by rw [h.leaf]
    refine ⟨h.pair fun _ _ _ _ _ ↦ rfl, ?_, fun _ ↦ ⟨?_, h.core.proc, ?_, ?_⟩⟩
    · exact hp.change (by rw [h.core.proc]) (hu _) (fun n ↦ by rw [hu]) fun n _ ↦ by rw [hu]
    · apply hc.change h.core
      · intro m _ hs
        rw [hu] at hs
        exact .inl hs
      · intro m
        rw [hu]
      · rw [hu, hu]
        exact hc.mirror
    · intro m
      rw [hu]
    · intro m hm
      rw [hu]
      exact hm
  · rw [Leaves.put_ne _ hne.symm] at hnone
    have hu : w'.leaf (.user p) = update (w.leaf (.user p)) n (some e.mark) := by
      rw [h.leaf, Leaves.put_ne _ hne, Leaves.put_same]
    have hcu : w'.leaf (.user c) = update (w.leaf (.user c)) n (some e.mark) := by
      rw [h.leaf, Leaves.put_same, Leaves.put_ne _ hne.symm]
    have hk : ∀ q, w'.leaf (.kern q) = w.leaf (.kern q) := by
      intro q
      rw [h.leaf, Leaves.put_ne _ (by simp), Leaves.put_ne _ (by simp)]
    have hs : ∀ m, (w'.leaf (.user p) m).isSome = (w.leaf (.user p) m).isSome := by
      intro m
      rw [hu]
      exact isSome_update (by rw [he]; rfl) _ m
    refine ⟨?_, ?_, fun _ ↦ ⟨?_, h.core.proc, hs, ?_⟩⟩
    · apply h.pair
      intro t h1 _ h3 _
      rw [Leaves.put_ne _ h3, Leaves.put_ne _ h1]
    · apply hp.change (by rw [h.core.proc]) (hk p) hs
      intro m hm
      rw [hu, update_of_ne]
      rintro rfl
      exact hm hn
    · apply hc.change h.core _ hs
      · rw [hcu, hk]
        exact hc.mirror.putUser hnone _
      · intro m _ hm
        rw [hcu, update_apply] at hm
        split_ifs at hm with hmn
        · subst hmn
          exact .inr (by rw [he]; rfl)
        · exact .inl hm
    · intro m hm
      rw [hcu, update_apply]
      split_ifs
      · rfl
      · exact hm
  · have hu : w'.leaf (.user p) = update (w.leaf (.user p)) n (some e.mark) := by
      rw [h.leaf, Leaves.put_same]
    refine ⟨?_, ?_, by simp⟩
    · apply h.pair
      intro t h1 _ _ _
      rw [Leaves.put_ne _ h1]
    · apply hp.change (by rw [h.core.proc])
      · rw [h.leaf, Leaves.put_ne _ (by simp)]
      · intro m
        rw [hu]
        exact isSome_update (by rw [he]; rfl) _ m
      · intro m hm
        rw [hu, update_of_ne]
        rintro rfl
        exact hm hn

/-- `uvmcopy_range` on pages of the heap or the stack. -/
theorem uvmcopyRange_spec {ns : List Nat} {p c : P} {w : World P O F} {start fin : Nat}
    (hpc : p ≠ c) (hsub : pages start fin ⊆ ns) (hp : Parent ns p w) (hc : Child ns p c w) :
    Ensures (uvmcopyRange (.user p) (.user c) start fin) w fun ok w' ↦
      Pair p c w w' ∧ Parent ns p w' ∧ (ok = true → Child ns p c w' ∧ Copying p c w w') := by
  unfold uvmcopyRange
  refine (ensures_stopAt
    (fun left w' ↦ left ⊆ ns ∧ Pair p c w w' ∧ Parent ns p w' ∧ Child ns p c w' ∧ Copying p c w w')
    (fun _ _ w' ↦ Pair p c w w' ∧ Parent ns p w') ?_
    ⟨hsub, .refl p c w, hp, hc, .refl p c w⟩).bind ?_
  · rintro n left w1 ⟨hleft, h1, hp1, hc1, hcopy1⟩
    refine (uvmcopyPage_forking hpc (hleft List.mem_cons_self) hp1 hc1).mono ?_
    rintro ok w2 ⟨h2, hp2, hok⟩
    cases ok with
    | true =>
      exact ⟨fun _ hm ↦ hleft (List.mem_cons_of_mem n hm), h1.trans h2, hp2, (hok rfl).1,
        hcopy1.trans (hok rfl).2⟩
    | false => exact ⟨h1.trans h2, hp2⟩
  · intro r w1 h1
    cases r with
    | none =>
      obtain ⟨-, hpair, hp1, hc1, hcopy⟩ := h1
      rw [ensures_pure]
      exact ⟨hpair, hp1, fun _ ↦ ⟨hc1, hcopy⟩⟩
    | some n =>
      obtain ⟨_, -, hpair, hp1⟩ := h1
      simp only [ensures_bind, ensures_pure]
      apply (uvmunmap_at w1 (.user c) _ true).mono
      intro _ w2 h2
      have honly := h2.only (.inl rfl)
      exact ⟨hpair.trans honly.pair, hp1.only hpc honly, by simp⟩

/-! ### Mappings -/

section

variable [DecidableEq O]

/-- The first loop of `vma_fork`: the child has the mappings of the parent. -/
theorem forkSlots_spec {p c : P} {w : World P O F} (hpc : p ≠ c)
    (hnone : ∀ i, (w.proc c).vmas i = none) :
    Ensures (forEach (forkSlot p c) slots) w fun _ w' ↦
      Slots c w w' (w.proc p).vmas [] := by
  suffices hrest : ∀ (is : List (Fin nvma)) (w : World P O F),
      Ensures (forEach (forkSlot p c) is) w fun _ w' ↦
        Slots c w w' (fun i ↦ if i ∈ is then ((w.proc p).vmas i).or ((w.proc c).vmas i)
          else (w.proc c).vmas i) [] by
    apply (hrest slots w).mono
    intro _ w' h
    have hall : ∀ i : Fin nvma, i ∈ slots := List.mem_finRange
    simp only [hall, if_true, hnone, Option.or_none] at h
    exact h
  intro is
  induction is with
  | nil =>
    intro w
    rw [forEach, ensures_pure]
    simpa using Slots.refl c w
  | cons i is ih =>
    intro w
    have hslot : Ensures (forkSlot p c i) w fun _ w' ↦ Slots c w w'
        (update (w.proc c).vmas i (((w.proc p).vmas i).or ((w.proc c).vmas i))) [] := by
      unfold forkSlot
      rw [ensures_bind, ensures_get]
      cases hv : (w.proc p).vmas i with
      | none =>
        rw [ensures_pure, Option.none_or, update_eq_self]
        exact .refl c w
      | some v =>
        apply (setVma_proc w c i (some v)).bind
        intro _ w1 h1
        apply (mmapObjectGet_tab w1 v.object).mono
        intro _ w2 h2
        exact h1.tab h2
    rw [forEach, ensures_bind]
    apply hslot.mono
    intro _ w1 h1
    apply (ih w1).mono
    intro _ w2 h2
    have h12 := h1.trans h2
    have hp : w1.proc p = w.proc p := h1.own.proc p hpc
    have hvmas : (fun j ↦ if j ∈ is then ((w1.proc p).vmas j).or ((w1.proc c).vmas j)
        else (w1.proc c).vmas j) =
          fun j ↦ if j ∈ i :: is then ((w.proc p).vmas j).or ((w.proc c).vmas j)
            else (w.proc c).vmas j := by
      ext j : 1
      rw [h1.vmas, hp, update_apply]
      by_cases hji : j = i
      · subst hji
        cases (w.proc p).vmas j <;> simp
      · simp [hji]
    rw [hvmas] at h12
    exact h12

end

/-- The entry of the parent is marked in both tables. -/
theorem forkMark_spec (w : World P O F) (p : P) (n : Nat) (e : Pte) :
    Ensures (forkMark p n e) w fun _ w' ↦ Eff w w' (w.leaf.both p n e) := by
  unfold forkMark
  apply (setLeaf_spec w (.user p) n e).bind
  intro _ w1 h1
  apply (upg2ukpg_one_spec w1 (.user p) (.kern p) n).bind
  intro ok w2 h2
  rw [h1.leaf] at h2
  cases ok with
  | true => exact ensures_pure.mpr (h1.trans h2)
  | false => exact ensures_halt

/-- A round of the inner loop of `vma_fork`: the parent's entry stays or is marked, and the child
gets it too or the loop stops. -/
theorem forkPage_spec (w : World P O F) (p c : P) (v : Vma O) (n : Nat) :
    Ensures (forkPage p c v n) w fun ok w' ↦
      (ok = true ∧ w.leaf (.user p) n = none ∧ Eff w w' w.leaf) ∨
        ∃ e L e', w.leaf (.user p) n = some e ∧ (e' = e ∨ e' = e.mark) ∧
          (L = w.leaf ∨ L = w.leaf.both p n e') ∧
          ((ok = true ∧ Eff w w' (L.both c n e')) ∨ (ok = false ∧ Eff w w' L)) := by
  unfold forkPage
  apply (walk_spec w (.user p) n).bind
  rintro r w0 ⟨rfl, rfl⟩
  cases he : w0.leaf (.user p) n with
  | none =>
    rw [ensures_pure]
    exact .inl ⟨rfl, rfl, .refl w0⟩
  | some e =>
    have hchild : ∀ (w1 : World P O F) (L : Leaves P) (perm : Perm), Eff w0 w1 L →
        Ensures (do
          if ← mappages (.user c) n e.pa perm then
            kaddquota e.pa
            if ← upg2ukpg (.user c) (.kern c) [n] then pure true
            else Prog.halt "vma_fork: child upg2ukpg"
          else
            pure false) w1 fun ok w' ↦
          (ok = true ∧ Eff w0 w' (L.both c n ⟨e.pa, perm⟩)) ∨ (ok = false ∧ Eff w0 w' L) := by
      intro w1 L perm h1
      apply (mappages_spec w1 (.user c) n e.pa perm).bind
      rintro ok w2 (⟨rfl, -, h2⟩ | ⟨rfl, h2⟩)
      · rw [h1.leaf] at h2
        simp only [if_true, ensures_bind]
        apply (kaddquota_quiet w2 e.pa).mono
        intro _ w3 h3
        apply (upg2ukpg_one_spec w3 (.user c) (.kern c) n).mono
        intro ok w4 h4
        rw [h3.leaf, h2.leaf] at h4
        cases ok with
        | true => exact ensures_pure.mpr (.inl ⟨rfl, ((h1.trans h2).trans h3.eff).trans h4⟩)
        | false => exact ensures_halt
      · rw [h1.leaf] at h2
        simp only [Bool.false_eq_true, if_false, ensures_pure]
        exact .inr ⟨trivial, h1.trans h2⟩
    rw [ensures_bind, ensures_doIf]
    constructor
    · intro hshare
      have hmark : (⟨e.pa, if v.flags.testBit 1 ∧ e.perm.w then e.perm.share else e.perm⟩ : Pte) =
          e.mark := by
        rw [if_pos hshare, Pte.mark, if_pos hshare.2]
      apply (forkMark_spec w0 p n _).mono
      intro _ w1 h1
      apply (hchild w1 _ _ h1).mono
      intro ok w2 h2
      exact .inr ⟨e, _, _, rfl, .inr hmark, .inr rfl, h2⟩
    · intro hkeep
      have hsame : (⟨e.pa, if v.flags.testBit 1 ∧ e.perm.w then e.perm.share else e.perm⟩ : Pte) =
          e := by
        rw [if_neg hkeep]
      apply (hchild w0 _ _ (.refl w0)).mono
      intro ok w2 h2
      exact .inr ⟨e, _, _, rfl, .inl hsame, .inl rfl, h2⟩

omit [DecidableEq P] in
/-- The parent's entry is written in both tables. -/
theorem Parent.both {ns : List Nat} {p : P} {w w' : World P O F} {n : Nat} {e e' : Pte}
    (h : Parent ns p w) (he : w.leaf (.user p) n = some e) (hproc : w'.proc p = w.proc p)
    (hu : w'.leaf (.user p) = update (w.leaf (.user p)) n (some e'))
    (hk : w'.leaf (.kern p) = update (w.leaf (.kern p)) n (some e'.mirror)) :
    Parent ns p w' := by
  constructor
  · rw [hproc, hu, hk]
    exact h.space.put (fun hn ↦ h.space.foot n e hn he) e'
  · rw [hproc, hu]
    apply h.resident.change
    intro m hm
    rw [isSome_update (by rw [he]; rfl), hm]

/-- A page of a mapping is shared. -/
theorem forkPage_forking {ns : List Nat} {p c : P} {w : World P O F} (v : Vma O) (n : Nat)
    (hpc : p ≠ c) (hp : Parent ns p w) (hc : Child ns p c w) :
    Ensures (forkPage p c v n) w fun ok w' ↦
      Pair p c w w' ∧ Parent ns p w' ∧ (ok = true → Child ns p c w' ∧ Copying p c w w' ∧
        ((w.leaf (.user p) n).isSome → (w'.leaf (.user c) n).isSome)) := by
  have hpu : Tbl.user p ≠ Tbl.user c := by simpa using hpc
  have hpk : Tbl.kern p ≠ Tbl.kern c := by simpa using hpc
  apply (forkPage_spec w p c v n).mono
  rintro ok w' (⟨rfl, hnone, h⟩ | ⟨e, L, e', he, -, hL, h⟩)
  · have hu : ∀ t, w'.leaf t = w.leaf t := fun t ↦ by rw [h.leaf]
    refine ⟨h.pair fun _ _ _ _ _ ↦ rfl, ?_, fun _ ↦ ⟨?_, ⟨h.core.proc, ?_, ?_⟩, ?_⟩⟩
    · exact hp.change (by rw [h.core.proc]) (hu _) (fun n ↦ by rw [hu]) fun n _ ↦ by rw [hu]
    · apply hc.change h.core
      · intro m _ hs
        rw [hu] at hs
        exact .inl hs
      · intro m
        rw [hu]
      · rw [hu, hu]
        exact hc.mirror
    · intro m
      rw [hu]
    · intro m hm
      rw [hu]
      exact hm
    · intro hs
      rw [hnone] at hs
      cases hs
  · have hLne : ∀ t, t ≠ .user p → t ≠ .kern p → L t = w.leaf t := by
      intro t hu hk
      rcases hL with rfl | rfl
      · rfl
      · exact Leaves.both_ne _ p n e' hu hk
    have hparent : ∀ w' : World P O F, w'.proc p = w.proc p →
        w'.leaf (.user p) = L (.user p) → w'.leaf (.kern p) = L (.kern p) →
        Parent ns p w' ∧ ∀ m, (w'.leaf (.user p) m).isSome = (w.leaf (.user p) m).isSome := by
      intro w' hproc hu hk
      rcases hL with rfl | rfl
      · refine ⟨hp.change hproc hk ?_ ?_, ?_⟩
        · intro m
          rw [hu]
        · intro m _
          rw [hu]
        · intro m
          rw [hu]
      · rw [Leaves.both_user] at hu
        rw [Leaves.both_kern] at hk
        refine ⟨hp.both he hproc hu hk, ?_⟩
        intro m
        rw [hu, isSome_update (by rw [he]; rfl)]
    rcases h with ⟨rfl, h⟩ | ⟨rfl, h⟩
    · have hcu : w'.leaf (.user c) = update (w.leaf (.user c)) n (some e') := by
        rw [h.leaf, Leaves.both_user, hLne _ hpu.symm (by simp)]
      have hck : w'.leaf (.kern c) = update (w.leaf (.kern c)) n (some e'.mirror) := by
        rw [h.leaf, Leaves.both_kern, hLne _ (by simp) hpk.symm]
      obtain ⟨hp', hs⟩ := hparent w' (by rw [h.core.proc])
        (by rw [h.leaf, Leaves.both_ne _ _ _ _ hpu (by simp)])
        (by rw [h.leaf, Leaves.both_ne _ _ _ _ (by simp) hpk])
      refine ⟨?_, hp', fun _ ↦ ⟨?_, ⟨h.core.proc, hs, ?_⟩, ?_⟩⟩
      · apply h.pair
        intro t h1 h2 h3 h4
        rw [Leaves.both_ne _ _ _ _ h3 h4, hLne t h1 h2]
      · apply hc.change h.core _ hs
        · rw [hcu, hck]
          exact hc.mirror.put n e'
        · intro m _ hm
          rw [hcu, update_apply] at hm
          split_ifs at hm with hmn
          · subst hmn
            exact .inr (by rw [he]; rfl)
          · exact .inl hm
      · intro m hm
        rw [hcu, update_apply]
        split_ifs
        · rfl
        · exact hm
      · intro _
        rw [hcu, update_self]
        rfl
    · refine ⟨?_, ?_, by simp⟩
      · apply h.pair
        intro t h1 h2 _ _
        exact hLne t h1 h2
      · exact (hparent w' (by rw [h.core.proc]) (by rw [h.leaf]) (by rw [h.leaf])).1

/-- The pages of these mappings of the parent are in the child. -/
def Shared (p c : P) (w : World P O F) (ns : List Nat) : Prop :=
  ∀ n ∈ ns, (w.leaf (.user p) n).isSome → (w.leaf (.user c) n).isSome

omit [DecidableEq P] in
private theorem Shared.copying {p c : P} {w w' : World P O F} {ns : List Nat} (h : Shared p c w ns)
    (h' : Copying p c w w') : Shared p c w' ns := by
  intro n hn hs
  rw [h'.parent] at hs
  exact h'.child n (h n hn hs)

/-- The pages of one mapping are shared. -/
theorem forkPages_spec {ns : List Nat} {p c : P} {w : World P O F} (i : Fin nvma)
    (hpc : p ≠ c) (hp : Parent ns p w) (hc : Child ns p c w) :
    Ensures (forkPages p c i) w fun ok w' ↦
      Pair p c w w' ∧ Parent ns p w' ∧ (ok = true → Child ns p c w' ∧ Copying p c w w' ∧
        ∀ v, (w.proc p).vmas i = some v → Shared p c w' (pages v.start v.fin)) := by
  unfold forkPages
  rw [ensures_bind, ensures_get]
  cases hv : (w.proc p).vmas i with
  | none =>
    rw [ensures_pure]
    exact ⟨.refl p c w, hp, fun _ ↦ ⟨hc, .refl p c w, by simp⟩⟩
  | some v =>
    refine (ensures_stopAt
      (fun left w' ↦ Pair p c w w' ∧ Parent ns p w' ∧ Child ns p c w' ∧ Copying p c w w' ∧
        ∀ n ∈ pages v.start v.fin, n ∈ left ∨ Shared p c w' [n])
      (fun _ _ w' ↦ Pair p c w w' ∧ Parent ns p w') ?_
      ⟨.refl p c w, hp, hc, .refl p c w, fun n hn ↦ .inl hn⟩).bind ?_
    · rintro n left w1 ⟨h1, hp1, hc1, hcopy1, hdone⟩
      refine (forkPage_forking v n hpc hp1 hc1).mono ?_
      rintro ok w2 ⟨h2, hp2, hok⟩
      cases ok with
      | false => exact ⟨h1.trans h2, hp2⟩
      | true =>
        obtain ⟨hc2, hcopy2, hn⟩ := hok rfl
        refine ⟨h1.trans h2, hp2, hc2, hcopy1.trans hcopy2, ?_⟩
        intro m hm
        rcases hdone m hm with hleft | hshared
        · rcases List.mem_cons.mp hleft with rfl | hleft
          · right
            intro k hk hs
            rw [List.mem_singleton] at hk
            subst hk
            rw [hcopy2.parent] at hs
            exact hn hs
          · exact .inl hleft
        · exact .inr (hshared.copying hcopy2)
    · intro r w1 h1
      rw [ensures_pure]
      cases r with
      | none =>
        obtain ⟨hpair, hp1, hc1, hcopy, hdone⟩ := h1
        refine ⟨hpair, hp1, fun _ ↦ ⟨hc1, hcopy, ?_⟩⟩
        rintro v' ⟨⟩ n hn
        exact (hdone n hn).resolve_left (by simp) n (by simp)
      | some n =>
        obtain ⟨_, -, hpair, hp1⟩ := h1
        exact ⟨hpair, hp1, by simp⟩

variable [DecidableEq O] [DecidableEq F]

/-- `vma_fork`: the child has the mappings of the parent and the pages in them. -/
theorem vmaFork_spec {ns : List Nat} {p c : P} {w : World P O F} (hpc : p ≠ c)
    (hp : Parent ns p w) (hc : Child ns p c w) (hnone : ∀ i, (w.proc c).vmas i = none) :
    Ensures (vmaFork p c) w fun ok w' ↦
      Pair p c w w' ∧ Parent ns p w' ∧ (ok = true → Child ns p c w' ∧
        w'.proc c = { w.proc c with vmas := (w.proc p).vmas } ∧
        ∀ i v, (w.proc p).vmas i = some v → Shared p c w' (pages v.start v.fin)) := by
  unfold vmaFork
  apply (forkSlots_spec hpc hnone).bind
  intro _ w1 h1
  have honly := h1.own.only
  have hleaf : w1.leaf = w.leaf := by rw [h1.leaf, Leaves.unmap_nil]
  have hproc : w1.proc p = w.proc p := honly.proc p hpc
  have hp1 : Parent ns p w1 := hp.only hpc honly
  have hc1 : Child ns p c w1 := by
    refine ⟨by rw [h1.there, hc.user], by rw [h1.there, hc.kern], ?_, ?_⟩
    · rw [hleaf]
      exact hc.dom
    · rw [hleaf]
      exact hc.mirror
  refine (ensures_stopAt
    (fun left w' ↦ Pair p c w w' ∧ Parent ns p w' ∧ Child ns p c w' ∧ Copying p c w1 w' ∧
      ∀ i, i ∈ left ∨ ∀ v, (w.proc p).vmas i = some v → Shared p c w' (pages v.start v.fin))
    (fun _ _ w' ↦ Pair p c w w' ∧ Parent ns p w') ?_
    ⟨honly.pair, hp1, hc1, .refl p c w1, fun i ↦ .inl (List.mem_finRange i)⟩).bind ?_
  · rintro i left w2 ⟨h2, hp2, hc2, hcopy2, hdone⟩
    refine (forkPages_spec i hpc hp2 hc2).mono ?_
    rintro ok w3 ⟨h3, hp3, hok⟩
    cases ok with
    | false => exact ⟨h2.trans h3, hp3⟩
    | true =>
      obtain ⟨hc3, hcopy3, hi⟩ := hok rfl
      rw [hcopy2.proc, hproc] at hi
      refine ⟨h2.trans h3, hp3, hc3, hcopy2.trans hcopy3, ?_⟩
      intro j
      rcases hdone j with hleft | hshared
      · rcases List.mem_cons.mp hleft with rfl | hleft
        · exact .inr hi
        · exact .inl hleft
      · exact .inr fun v hv ↦ (hshared v hv).copying hcopy3
  · intro r w2 h2
    cases r with
    | none =>
      obtain ⟨hpair, hp2, hc2, hcopy, hdone⟩ := h2
      rw [ensures_pure]
      refine ⟨hpair, hp2, fun _ ↦ ⟨hc2, ?_, ?_⟩⟩
      · rw [hcopy.proc, h1.proc, update_self]
      · intro i v hv
        exact (hdone i).resolve_left (by simp) v hv
    | some i =>
      obtain ⟨_, -, hpair, hp2⟩ := h2
      simp only [ensures_bind, ensures_pure]
      apply (vmaDestroyAll_own w2 c).mono
      intro _ w3 h3
      exact ⟨hpair.trans h3.only.pair, hp2.only hpc h3.only, by simp⟩

/-! ### The whole call -/

/-- The pages that `uvmcopy` copies. -/
def copied (sz : Nat) : List Nat := pages 0 sz ++ stackPages

omit [DecidableEq P] [DecidableEq O] [DecidableEq F] in
/-- A child that has all it needs, after its kernel table was filled. -/
theorem Child.space {p c : P} {w w' : World P O F} {sz : Nat} (hp : Parent (copied sz) p w)
    (hc : Child (copied sz) p c w) (hproc : w'.proc = w.proc)
    (hsz : (w.proc c).sz = (w.proc p).sz) (hvmas : (w.proc c).vmas = (w.proc p).vmas)
    (hshared : ∀ i v, (w.proc p).vmas i = some v → Shared p c w (pages v.start v.fin))
    (hu : w'.leaf (.user c) = w.leaf (.user c))
    (hk : w'.leaf (.kern c) = fun n ↦ if n ∈ copied sz then
      ((w.leaf (.user c) n).map Pte.mirror).or (w.leaf (.kern c) n) else w.leaf (.kern c) n) :
    SpaceAt w' c := by
  unfold SpaceAt
  rw [hproc, hu, hk]
  refine ⟨?_, ?_, hc.mirror.copy fun _ h ↦ h, ?_⟩
  · rw [hsz, hvmas]
    exact hp.space.layout
  · intro n e hn he
    obtain ⟨e', he'⟩ := Option.isSome_iff_exists.mp (hc.dom n hn (by rw [he]; rfl))
    have hcov := hp.space.foot n e' hn he'
    unfold Covered at hcov ⊢
    rw [hsz, hvmas]
    exact hcov
  · intro i v hv hops n hn
    rw [hvmas] at hv
    have hok := hp.space.layout.ok i v hv
    exact hshared i v hv n (hok.mem_pages.mpr hn) (hp.resident i v hv hops n hn)

/-- The middle part of `fork`. -/
theorem forkCopy_spec {p c : P} {w : World P O F} (hpc : p ≠ c) (hp : SpaceAt w p)
    (hc : Newborn c w) :
    Ensures (forkCopy p c) w fun ok w' ↦
      Pair p c w w' ∧ Parent (copied (w.proc p).sz) p w' ∧ (ok = true → SpaceAt w' c ∧
        w'.there (.user c) ∧ w'.there (.kern c)) := by
  have hsub : pages 0 (w.proc p).sz ⊆ copied (w.proc p).sz := List.subset_append_left _ _
  have hsub' : pages userStackStart userStackTop ⊆ copied (w.proc p).sz :=
    List.subset_append_right _ _
  unfold forkCopy
  rw [ensures_bind, ensures_get, ensures_bind]
  refine (uvmcopyRange_spec hpc hsub (hp.parent _) (hc.child _)).mono ?_
  rintro ok w1 ⟨h1, hp1, hok1⟩
  rw [ensures_ite, ensures_pure]
  refine ⟨fun hok ↦ ?_, fun hok ↦ ⟨h1, hp1, by simp⟩⟩
  obtain ⟨hc1, hcopy1⟩ := hok1 hok
  rw [ensures_bind]
  have hset : Ensures (setProc c fun q ↦ { q with sz := (w.proc p).sz }) w1 fun _ w' ↦
      Only c w1 w' ∧ w'.leaf = w1.leaf ∧ (∀ t, w'.there t = w1.there t) ∧
        w'.proc c = { w.proc c with sz := (w.proc p).sz } := by
    refine (setProc_only w1 c _).and ?_
    unfold setProc
    rw [ensures_modify]
    refine ⟨rfl, fun _ ↦ rfl, ?_⟩
    dsimp only
    rw [update_self, hcopy1.proc]
  apply hset.mono
  rintro _ w2 ⟨h2, hleaf2, hthere2, hproc2⟩
  have hp2 := hp1.only hpc h2
  have hc2 : Child (copied (w.proc p).sz) p c w2 := by
    refine ⟨by rw [hthere2, hc1.user], by rw [hthere2, hc1.kern], ?_, ?_⟩
    · rw [hleaf2]
      exact hc1.dom
    · rw [hleaf2]
      exact hc1.mirror
  have h12 := h1.trans h2.pair
  refine (uvmcopyRange_spec hpc hsub' hp2 hc2).bind ?_
  rintro ok w3 ⟨h3, hp3, hok3⟩
  have h13 := h12.trans h3
  rw [ensures_ite, ensures_pure]
  refine ⟨fun hok ↦ ?_, fun hok ↦ ⟨h13, hp3, by simp⟩⟩
  obtain ⟨hc3, hcopy3⟩ := hok3 hok
  have hproc3 : w3.proc c = { w.proc c with sz := (w.proc p).sz } := by rw [hcopy3.proc, hproc2]
  refine (vmaFork_spec hpc hp3 hc3 ?_).bind ?_
  · intro i
    rw [hproc3]
    exact hc.vmas i
  rintro ok w4 ⟨h4, hp4, hok4⟩
  have h14 := h13.trans h4
  rw [ensures_ite, ensures_pure]
  refine ⟨fun hok ↦ ?_, fun hok ↦ ⟨h14, hp4, by simp⟩⟩
  obtain ⟨hc4, hproc4, hshared⟩ := hok4 hok
  have hne : Tbl.user c ≠ Tbl.kern c := by simp
  have hcopyOnly : ∀ {w w' : World P O F} {ms : List Nat},
      Eff w w' (w.leaf.copy (.user c) (.kern c) ms) → Only c w w' := by
    intro w w' ms h
    exact (h.at fun t ht ↦ Leaves.copy_ne _ ht ms).only (.inr rfl)
  apply (upg2ukpg_spec w4 hne (pages 0 (w.proc p).sz)).bind
  rintro ok w5 ⟨ms, h5, -, hms⟩
  have honly5 := hcopyOnly h5
  rw [ensures_ite, ensures_pure]
  refine ⟨fun hok ↦ ?_, fun hok ↦ ⟨h14.trans honly5.pair, hp4.only hpc honly5, by simp⟩⟩
  rw [hms hok] at h5
  apply (upg2ukpg_spec w5 hne stackPages).mono
  rintro ok w6 ⟨ms', h6, -, hms'⟩
  have honly6 := honly5.trans (hcopyOnly h6)
  refine ⟨h14.trans honly6.pair, hp4.only hpc honly6, fun hok ↦ ⟨?_, ?_, ?_⟩⟩
  · rw [hms' hok, h5.leaf, Leaves.copy_copy _ hne] at h6
    have h6' := h5.trans h6
    have hpp : w4.proc p = w.proc p := h14.proc p hpc
    apply Child.space hp4 hc4 h6'.core.proc
    · rw [hproc4, hproc3, hpp]
    · rw [hproc4, hpp, h13.proc p hpc]
    · intro i v hv
      rw [hpp, ← h13.proc p hpc] at hv
      exact hshared i v hv
    · rw [h6'.leaf, Leaves.copy_ne _ hne]
    · rw [h6'.leaf, Leaves.copy_same]
      rfl
  · rw [h6.core.there, h5.core.there, hc4.user]
  · rw [h6.core.there, h5.core.there, hc4.kern]

omit [DecidableEq O] [DecidableEq F] in
/-- `fork` brings the parent's kernel table up to date. -/
theorem forkSync_spec {p : P} {w : World P O F} (hp : Parent (copied (w.proc p).sz) p w) :
    Ensures (forkSync p) w fun _ w' ↦ w'.proc = w.proc ∧ Own p w w' ∧ SpaceAt w' p := by
  have hne : Tbl.user p ≠ Tbl.kern p := by simp
  unfold forkSync uvmStackSync
  rw [ensures_bind, ensures_get, ensures_bind]
  apply (upg2ukpg_spec w hne (pages 0 (w.proc p).sz)).mono
  rintro ok w1 ⟨ms, h1, -, hms⟩
  rw [ensures_ite]
  refine ⟨fun hok ↦ ?_, fun _ ↦ ensures_halt⟩
  rw [hms hok] at h1
  apply (upg2ukpg_spec w1 hne stackPages).bind
  rintro ok w2 ⟨ms', h2, -, hms'⟩
  rw [ensures_ite, ensures_pure]
  refine ⟨fun hok ↦ ?_, fun _ ↦ ensures_halt⟩
  rw [hms' hok, h1.leaf, Leaves.copy_copy _ hne] at h2
  have h := h1.trans h2
  refine ⟨h.core.proc, h.tab.own fun t _ ht ↦ Leaves.copy_ne _ ht _, ?_⟩
  unfold SpaceAt
  rw [h.core.proc, h.leaf, Leaves.copy_ne _ hne, Leaves.copy_same]
  exact ⟨hp.space.layout, hp.space.foot, hp.space.mirror.copy fun _ hn ↦ hn, hp.resident⟩

/-- The memory of all processes is the same. -/
structure Still (w w' : World P O F) : Prop where
  leaf : w'.leaf = w.leaf
  there : ∀ t, w'.there t = w.there t
  sz : ∀ q, (w'.proc q).sz = (w.proc q).sz
  vmas : ∀ q, (w'.proc q).vmas = (w.proc q).vmas

section

omit [DecidableEq P] [DecidableEq O] [DecidableEq F]

/-- Nothing happens. -/
theorem Still.refl (w : World P O F) : Still w w := ⟨rfl, fun _ ↦ rfl, fun _ ↦ rfl, fun _ ↦ rfl⟩

/-- Still steps compose. -/
theorem Still.trans {w w' w'' : World P O F} (h : Still w w') (h' : Still w' w'') :
    Still w w'' := by
  constructor
  · rw [h'.leaf, h.leaf]
  · intro t
    rw [h'.there, h.there]
  · intro q
    rw [h'.sz, h.sz]
  · intro q
    rw [h'.vmas, h.vmas]

/-- An effect that keeps the entries. -/
theorem Tab.still {w w' : World P O F} (h : Tab w w' w.leaf) : Still w w' :=
  ⟨h.leaf, h.there, fun q ↦ by rw [h.proc], fun q ↦ by rw [h.proc]⟩

/-- A still step keeps a space. -/
theorem SpaceAt.still {p : P} {w w' : World P O F} (h : SpaceAt w p) (h' : Still w w') :
    SpaceAt w' p := by
  unfold SpaceAt at h ⊢
  rw [h'.leaf]
  refine ⟨?_, ?_, h.mirror, ?_⟩
  · rw [h'.sz, h'.vmas]
    exact h.layout
  · intro n e hn he
    have hcov := h.foot n e hn he
    unfold Covered at hcov ⊢
    rw [h'.sz, h'.vmas]
    exact hcov
  · rw [h'.vmas]
    exact h.resident

end

omit [DecidableEq O] [DecidableEq F] in
/-- A change of a process that is not one of its memory. -/
theorem setProc_still (w : World P O F) (c : P) {f : Proc P O F → Proc P O F}
    (hf : ∀ q, (f q).sz = q.sz ∧ (f q).vmas = q.vmas) :
    Ensures (setProc c f) w fun _ w' ↦ Still w w' := by
  unfold setProc
  rw [ensures_modify]
  refine ⟨rfl, fun _ ↦ rfl, ?_, ?_⟩
  · intro q
    dsimp only
    by_cases hq : q = c
    · rw [hq, update_self, (hf _).1]
    · rw [update_of_ne hq]
  · intro q
    dsimp only
    by_cases hq : q = c
    · rw [hq, update_self, (hf _).2]
    · rw [update_of_ne hq]

omit [DecidableEq O] in
/-- The open files of the child. -/
theorem forkFiles_spec (w : World P O F) (p c : P) (fds : List (Fin nofile)) :
    Ensures (forEach (forkFile p c) fds) w fun _ w' ↦ Only c w w' ∧ Still w w' := by
  apply ensures_forEach (fun _ w' ↦ Only c w w' ∧ Still w w') _ ⟨.refl c w, .refl w⟩
  rintro fd fds w1 ⟨honly, hstill⟩
  unfold forkFile
  rw [ensures_bind, ensures_get]
  split
  · exact ensures_pure.mpr ⟨honly, hstill⟩
  · rename_i f _
    apply (filedup_tab w1 f).bind
    intro _ w2 h2
    refine ((setProc_only w2 c _).and (setProc_still w2 c ?_)).mono ?_
    · intro q
      exact ⟨rfl, rfl⟩
    · rintro _ w3 ⟨h3, h3'⟩
      have honly2 : Only c w1 w2 := (h2.own fun _ _ _ ↦ rfl).only
      exact ⟨(honly.trans honly2).trans h3, (hstill.trans h2.still).trans h3'⟩

section

omit [DecidableEq P] [DecidableEq O] [DecidableEq F]

/-- A lock mark keeps the spaces. -/
theorem setHeld_still (w : World P O F) (b : Bool) :
    Ensures (setHeld b) w fun _ w' ↦ w'.proc = w.proc ∧ Still w w' := by
  unfold setHeld
  rw [ensures_modify]
  exact ⟨rfl, rfl, fun _ ↦ rfl, fun _ ↦ rfl, fun _ ↦ rfl⟩

/-- An own step of the parent. -/
theorem Own.pair {p c : P} {w w' : World P O F} (h : Own p w w') (hp : w'.proc p = w.proc p) :
    Pair p c w w' := by
  refine ⟨?_, fun t hu hk _ _ ↦ h.leaf t hu hk, fun t _ _ ↦ h.there t⟩
  intro q _
  by_cases hq : q = p
  · rw [hq, hp]
  · exact h.proc q hq

/-- Another process is not concerned. -/
theorem SpaceAt.pair {p c q : P} {w w' : World P O F} (h : SpaceAt w q) (h' : Pair p c w w')
    (hp : q ≠ p) (hc : q ≠ c) : SpaceAt w' q := by
  unfold SpaceAt
  rw [h'.proc q hc, h'.leaf _ (by simpa using hp) (by simp) (by simpa using hc) (by simp),
    h'.leaf _ (by simp) (by simpa using hp) (by simp) (by simpa using hc)]
  exact h

/-- A step on the child keeps other spaces. -/
theorem SpaceAt.only {c q : P} {w w' : World P O F} (h : SpaceAt w q) (h' : Only c w w')
    (hc : q ≠ c) : SpaceAt w' q :=
  h.pair (p := c) h'.pair hc hc

end

/-- `fork`: the parent keeps its address space, and the child gets one if the call succeeds. -/
theorem fork_spec (b : Boot P) {p c : P} {w : World P O F} (hpc : p ≠ c)
    (hunused : (w.proc c).state = .unused) (hp : SpaceAt w p) :
    Ensures (fork b p c) w fun ok w' ↦ Pair p c w w' ∧ SpaceAt w' p ∧
      (ok = true → SpaceAt w' c ∧ w'.there (.user c) ∧ w'.there (.kern c)) ∧
      (ok = false → (w'.proc c).state = .unused) := by
  unfold fork
  apply (setHeld_still w true).bind
  rintro _ w1 ⟨hproc1, hstill1⟩
  have hpair1 : Pair p c w w1 := by
    refine ⟨fun q _ ↦ by rw [hproc1], fun t _ _ _ _ ↦ by rw [hstill1.leaf], fun t _ _ ↦ ?_⟩
    exact hstill1.there t
  apply (allocproc_spec b w1 c (by rw [hproc1, hunused])).bind
  rintro ok w2 ⟨honly2, hnew, hfail⟩
  have hpair2 := hpair1.trans honly2.pair
  have hp2 : SpaceAt w2 p := (hp.still hstill1).only honly2 hpc
  rw [ensures_ite]
  constructor
  · intro hok
    apply (forkCopy_spec hpc hp2 (hnew hok)).bind
    rintro ok w3 ⟨hpair3, hp3, hc3⟩
    have hpair23 := hpair2.trans hpair3
    have hsz : ∀ w' : World P O F, w'.proc p = w3.proc p → (w2.proc p).sz = (w'.proc p).sz := by
      intro w' h
      rw [h, hpair3.proc p hpc]
    rw [ensures_ite]
    constructor
    · intro hok
      obtain ⟨hc3, hu3, hk3⟩ := hc3 hok
      apply (forkFiles_spec w3 p c _).bind
      rintro _ w4 ⟨honly4, hstill4⟩
      have hset : Ensures (setProc c fun q ↦ { q with state := .live, parent := some p }) w4
          fun _ w' ↦ Only c w4 w' ∧ Still w4 w' := by
        apply (setProc_only w4 c _).and
        apply setProc_still
        intro q
        exact ⟨rfl, rfl⟩
      apply hset.bind
      rintro _ w5 ⟨honly5, hstill5⟩
      apply ((setHeld_only w5 c false).and (setHeld_still w5 false)).bind
      rintro _ w6 ⟨honly6, -, hstill6⟩
      have honly := (honly4.trans honly5).trans honly6
      have hstill := (hstill4.trans hstill5).trans hstill6
      have hp6 := hp3.only hpc honly
      rw [hsz w6 (honly.proc p hpc)] at hp6
      simp only [ensures_bind, ensures_pure]
      apply (forkSync_spec hp6).mono
      rintro _ w7 ⟨hproc7, hown7, hspace⟩
      have hpair7 : Pair p c w6 w7 := hown7.pair (by rw [hproc7])
      refine ⟨(hpair23.trans honly.pair).trans hpair7, hspace, fun _ ↦ ⟨?_, ?_, ?_⟩, by simp⟩
      · exact (hc3.still hstill).only hown7.only (Ne.symm hpc)
      · rw [hown7.there, hstill.there, hu3]
      · rw [hown7.there, hstill.there, hk3]
    · intro _
      rw [hsz w3 rfl] at hp3
      apply (forkSync_spec hp3).bind
      rintro _ w4 ⟨hproc4, hown4, hspace⟩
      have hpair4 : Pair p c w3 w4 := hown4.pair (by rw [hproc4])
      apply ((freeproc_only b w4 c).and (freeproc_unused b w4 c)).bind
      rintro _ w5 ⟨honly5, hunused5⟩
      simp only [ensures_bind, ensures_pure]
      apply ((setHeld_only w5 c false).and (setHeld_still w5 false)).mono
      rintro _ w6 ⟨honly6, hproc6, -⟩
      have honly := honly5.trans honly6
      refine ⟨(hpair23.trans hpair4).trans honly.pair, hspace.only honly hpc, by simp, ?_⟩
      intro _
      rw [hproc6, hunused5]
  · intro hok
    rw [Bool.not_eq_true] at hok
    simp only [ensures_bind, ensures_pure]
    apply ((setHeld_only w2 c false).and (setHeld_still w2 false)).mono
    rintro _ w3 ⟨honly3, hproc3, hstill3⟩
    refine ⟨hpair2.trans honly3.pair, hp2.still hstill3, by simp, ?_⟩
    intro _
    rw [hproc3]
    exact hfail hok

end Xv6K210.Vm
