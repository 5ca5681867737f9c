import Xv6K210.Vm.Space

/-!
# What the calls do to the entries

For every routine that maps or unmaps pages, the entries afterwards in terms of
the entries before, on every way out.
-/

namespace Xv6K210.Vm

open Xv6K210.Base Prog Function

variable {P O F : Type} [DecidableEq P]

/-! ### Reading changed entries -/

namespace Leaves

variable (L : Leaves P) {t t' u k : Tbl P}

/-- The table just written. -/
theorem put_same (n : Nat) (x : Option Pte) : L.put t n x t = update (L t) n x := by
  unfold put
  rw [update_self]

/-- Other tables stay. -/
theorem put_ne (h : t' ≠ t) (n : Nat) (x : Option Pte) : L.put t n x t' = L t' := by
  unfold put
  rw [update_of_ne h]

/-- The entries dropped. -/
theorem drop_same (ns : List Nat) : L.drop t ns t = fun n ↦ if n ∈ ns then none else L t n := by
  unfold drop
  rw [update_self]

/-- Other tables stay. -/
theorem drop_ne (h : t' ≠ t) (ns : List Nat) : L.drop t ns t' = L t' := by
  unfold drop
  rw [update_of_ne h]

/-- The entries copied. -/
theorem copy_same (ns : List Nat) : L.copy u k ns k =
    fun n ↦ if n ∈ ns then ((L u n).map Pte.mirror).or (L k n) else L k n := by
  unfold copy
  rw [update_self]

/-- Other tables stay. -/
theorem copy_ne (h : t' ≠ k) (ns : List Nat) : L.copy u k ns t' = L t' := by
  unfold copy
  rw [update_of_ne h]

/-- An entry of a process and its copy in the kernel table. -/
def both (p : P) (n : Nat) (e : Pte) : Leaves P :=
  (L.put (.user p) n (some e)).copy (.user p) (.kern p) [n]

/-- The user table of a page mapped in both. -/
theorem both_user (p : P) (n : Nat) (e : Pte) :
    L.both p n e (.user p) = update (L (.user p)) n (some e) := by
  unfold both
  rw [copy_ne _ (by simp), put_same]

/-- The kernel table of a page mapped in both. -/
theorem both_kern (p : P) (n : Nat) (e : Pte) :
    L.both p n e (.kern p) = update (L (.kern p)) n (some e.mirror) := by
  unfold both
  rw [copy_same, put_same, put_ne _ (by simp)]
  ext m : 1
  rw [update_apply, update_apply]
  by_cases hm : m = n
  · simp [hm]
  · simp [hm]

/-- Other tables stay. -/
theorem both_ne (p : P) (n : Nat) (e : Pte) (hu : t ≠ .user p) (hk : t ≠ .kern p) :
    L.both p n e t = L t := by
  unfold both
  rw [copy_ne _ hk, put_ne _ hu]

/-- Pages of a process go from both of its tables. -/
def unmap (p : P) (ns : List Nat) : Leaves P := (L.drop (.kern p) ns).drop (.user p) ns

/-- The user table after pages are unmapped. -/
theorem unmap_user (p : P) (ns : List Nat) :
    L.unmap p ns (.user p) = fun n ↦ if n ∈ ns then none else L (.user p) n := by
  unfold unmap
  rw [drop_same, drop_ne _ (by simp)]

/-- The kernel table after pages are unmapped. -/
theorem unmap_kern (p : P) (ns : List Nat) :
    L.unmap p ns (.kern p) = fun n ↦ if n ∈ ns then none else L (.kern p) n := by
  unfold unmap
  rw [drop_ne _ (by simp), drop_same]

/-- Other tables stay. -/
theorem unmap_ne (p : P) (ns : List Nat) (hu : t ≠ .user p) (hk : t ≠ .kern p) :
    L.unmap p ns t = L t := by
  unfold unmap
  rw [drop_ne _ hu, drop_ne _ hk]

/-- Nothing is unmapped. -/
theorem unmap_nil (p : P) : L.unmap p [] = L := by
  unfold unmap
  rw [drop_nil, drop_nil]

/-- Pages unmapped twice. -/
theorem unmap_unmap (p : P) (ns ms : List Nat) :
    (L.unmap p ns).unmap p ms = L.unmap p (ns ++ ms) := by
  ext t m : 2
  by_cases hu : t = .user p
  · subst hu
    simp only [unmap_user, List.mem_append]
    split_ifs <;> simp_all
  · by_cases hk : t = .kern p
    · subst hk
      simp only [unmap_kern, List.mem_append]
      split_ifs <;> simp_all
    · rw [unmap_ne _ _ _ hu hk, unmap_ne _ _ _ hu hk, unmap_ne _ _ _ hu hk]

end Leaves

/-! ### Unmapping -/

/-- What `vma_unmap` does to the tables. -/
theorem vmaUnmapPages_spec (w : World P O F) (p : P) (start fin : Nat) :
    Ensures (vmaUnmapPages p start fin) w fun _ w' ↦
      Eff w w' (w.leaf.unmap p (pages start fin)) := by
  unfold vmaUnmapPages
  induction pages start fin generalizing w with
  | nil =>
    rw [forEach, ensures_pure, Leaves.unmap_nil]
    exact .refl w
  | cons n ns ih =>
    rw [forEach, ensures_bind]
    unfold vmaUnmapPage
    apply (uvmunmap_spec w (.kern p) [n] false).bind
    intro _ w1 h1
    apply (uvmunmap_spec w1 (.user p) [n] true).mono
    intro _ w2 h2
    rw [h1.leaf] at h2
    apply (ih w2).mono
    intro _ w3 h3
    rw [h2.leaf] at h3
    change Eff w2 w3 ((w.leaf.unmap p [n]).unmap p ns) at h3
    rw [Leaves.unmap_unmap] at h3
    exact (h1.trans h2).trans h3

/-- What `uvmdealloc` does to one table. -/
theorem uvmdealloc_spec (w : World P O F) (t : Tbl P) (oldsz newsz : Nat) (doFree : Bool) :
    Ensures (uvmdealloc t oldsz newsz doFree) w fun r w' ↦
      r = min oldsz newsz ∧
        Eff w w' (w.leaf.drop t (pages (pgroundup newsz) (pgroundup oldsz))) := by
  unfold uvmdealloc
  simp only [ensures_ite, ensures_pure, ensures_bind]
  constructor
  · intro hle
    refine ⟨(min_eq_left hle).symm, ?_⟩
    have hnil : pages (pgroundup newsz) (pgroundup oldsz) = [] := by
      have := pgroundup_mono hle
      unfold pages
      rw [List.range'_eq_nil_iff]
      have h1 := pgroundup_mod newsz
      have h2 := pgroundup_mod oldsz
      unfold pgsize at *
      omega
    rw [hnil, Leaves.drop_nil]
    exact .refl w
  · intro hlt
    apply (uvmunmap_spec w t _ doFree).mono
    intro _ w' h
    exact ⟨(min_eq_right (Nat.le_of_not_le hlt)).symm, h⟩

/-! ### Faults -/

/-- What a fault of process `q` may store for a page. -/
inductive NewEntry (q : Proc P O F) (u : Nat → Option Pte) (n : Nat) : Pte → Prop where
  | heap (pa : Nat) (h : n * pgsize < pgroundup q.sz) :
      NewEntry q u n ⟨pa, ⟨true, true, true, true, false⟩⟩
  | stack (pa : Nat) (h : userStackStart ≤ n * pgsize ∧ n * pgsize < userStackTop) :
      NewEntry q u n ⟨pa, ⟨true, true, false, true, false⟩⟩
  | mapping (pa : Nat) (i : Fin nvma) (v : Vma O) (access : Access) (hv : q.vmas i = some v)
      (hc : v.contains (n * pgsize)) (ha : v.allows access) : NewEntry q u n ⟨pa, v.perm⟩
  | resolved (pa : Nat) (e : Pte) (he : u n = some e) (hcow : e.perm.cow) :
      NewEntry q u n ⟨pa, { e.perm with w := true, cow := false }⟩

/-- What a fault of process `p` on a page does to the entries. -/
inductive FaultEff (p : P) (n : Nat) (w w' : World P O F) : Prop where
  | same (h : Eff w w' w.leaf)
  | sync (h : Eff w w' (w.leaf.copy (.user p) (.kern p) [n]))
  | store (e : Pte) (he : NewEntry (w.proc p) (w.leaf (.user p)) n e)
      (h : Eff w w' (w.leaf.both p n e))

/-- What a fault of process `p` on a page does when it returns: only a fault that is resolved
changes entries, and then the entry of the page permits the access. -/
inductive FaultDone (p : P) (n : Nat) (access : Access) (w w' : World P O F) :
    FaultResult → Prop where
  | failed (r : FaultResult) (hr : r ≠ .resolved) (h : Eff w w' w.leaf) :
    FaultDone p n access w w' r
  | sync (e : Pte) (he : w.leaf (.user p) n = some e) (ha : e.perm.allows access = true)
      (h : Eff w w' (w.leaf.copy (.user p) (.kern p) [n])) : FaultDone p n access w w' .resolved
  | store (e : Pte) (he : NewEntry (w.proc p) (w.leaf (.user p)) n e)
      (ha : e.perm.allows access = true) (h : Eff w w' (w.leaf.both p n e)) :
      FaultDone p n access w w' .resolved

/-- The table effects of a fault that is served. -/
theorem FaultDone.eff {p : P} {n : Nat} {access : Access} {w w' : World P O F} {r : FaultResult}
    (h : FaultDone p n access w w' r) : FaultEff p n w w' := by
  cases h with
  | failed _ _ h => exact .same h
  | sync _ _ _ h => exact .sync h
  | store e he _ h => exact .store e he h

/-- The address lies in an area of the process that allows the access. -/
def InArea (q : Proc P O F) (address : Nat) (access : Access) : Prop :=
  (∃ i v, q.vmas i = some v ∧ v.contains address = true ∧ v.allows access = true) ∨
    address < q.sz ∨
    userStackStart ≤ address ∧ address < userStackTop ∧ access ≠ .exec

private theorem uvmFaultAlloc_spec (w : World P O F) (p : P) (n : Nat) (perm : Perm) :
    Ensures (uvmFaultAlloc p n perm) w fun b w' ↦
      b = false ∧ Eff w w' w.leaf ∨ b = true ∧ ∃ pa, Eff w w' (w.leaf.both p n ⟨pa, perm⟩) := by
  unfold uvmFaultAlloc
  simp only [ensures_ite, ensures_pure, ensures_bind]
  refine ⟨fun _ ↦ .inl ⟨trivial, .refl w⟩, fun _ ↦ ?_⟩
  apply (walk_spec w (.user p) n).mono
  rintro r w0 ⟨rfl, rfl⟩
  cases hleaf : w0.leaf (.user p) n with
  | some e =>
    rw [ensures_pure]
    exact .inl ⟨rfl, .refl w0⟩
  | none =>
    apply (kallocPage_quiet w0).bind
    intro r w1 h1
    cases r with
    | none =>
      rw [ensures_pure]
      exact .inl ⟨rfl, h1.eff⟩
    | some pa =>
      simp only [ensures_bind]
      apply (zeroPage_quiet w1 pa).mono
      intro _ w2 h2
      have h12 := h1.trans h2
      apply (mappages_spec w2 (.user p) n pa perm).mono
      rintro b w3 (⟨rfl, -, h3⟩ | ⟨rfl, h3⟩)
      · rw [h12.leaf] at h3
        simp only [if_true, ensures_bind]
        apply (vmSyncUserPage_spec w3 p n).mono
        intro b w4 h4
        rw [h3.leaf] at h4
        cases b with
        | true =>
          simp only [if_true, ensures_pure] at h4 ⊢
          exact .inr ⟨trivial, pa, (h12.eff.trans h3).trans h4⟩
        | false =>
          simp only [Bool.false_eq_true, if_false, ensures_bind, ensures_pure] at h4 ⊢
          apply (uvmunmap_spec w4 (.user p) [n] true).mono
          intro _ w5 h5
          rw [h4.leaf, Leaves.put_drop _ _ _ _ hleaf] at h5
          exact .inl ⟨trivial, ((h12.eff.trans h3).trans h4).trans h5⟩
      · rw [h12.leaf] at h3
        simp only [Bool.false_eq_true, if_false, ensures_bind, ensures_pure]
        apply (kfreePage_quiet w3 pa).mono
        intro _ w4 h4
        have h4' := h4.eff
        rw [h3.leaf] at h4'
        exact .inl ⟨trivial, (h12.eff.trans h3).trans h4'⟩

private theorem uvmcowmalloc_spec (w : World P O F) (p : P) (n : Nat) :
    Ensures (uvmcowmalloc p n) w fun b w' ↦
      b = false ∧ Eff w w' w.leaf ∨ b = true ∧ ∃ pa e, w.leaf (.user p) n = some e ∧
        Eff w w' (w.leaf.both p n ⟨pa, { e.perm with w := true, cow := false }⟩) := by
  unfold uvmcowmalloc
  apply (walk_spec w (.user p) n).bind
  rintro r w0 ⟨rfl, rfl⟩
  cases hleaf : w0.leaf (.user p) n with
  | none =>
    rw [ensures_pure]
    exact .inl ⟨rfl, .refl w0⟩
  | some e =>
    simp only [ensures_ite, ensures_pure, ensures_bind, ensures_get]
    refine ⟨fun _ ↦ .inl ⟨trivial, .refl w0⟩, fun _ ↦ ⟨fun _ ↦ ?_, fun _ ↦ ?_⟩⟩
    · apply (setLeaf_spec w0 (.user p) n _).mono
      intro _ w1 h1
      apply (vmSyncUserPage_spec w1 p n).mono
      intro b w2 h2
      rw [h1.leaf] at h2
      refine ⟨fun hb ↦ ?_, fun _ ↦ ensures_halt⟩
      rw [if_pos hb] at h2
      exact .inr ⟨trivial, e.pa, e, rfl, h1.trans h2⟩
    · apply (kallocPage_quiet w0).mono
      intro r w1 h1
      cases r with
      | none =>
        rw [ensures_pure]
        exact .inl ⟨rfl, h1.eff⟩
      | some pa =>
        simp only [ensures_bind, ensures_ite, ensures_pure]
        apply (copyPage_quiet w1 pa e.pa).mono
        intro _ w2 h2
        have h12 := h1.trans h2
        apply (setLeaf_spec w2 (.user p) n _).mono
        intro _ w3 h3
        rw [h12.leaf] at h3
        apply (vmSyncUserPage_spec w3 p n).mono
        intro b w4 h4
        rw [h3.leaf] at h4
        refine ⟨fun hb ↦ ?_, fun _ ↦ ensures_halt⟩
        rw [if_pos hb] at h4
        apply (kfreePage_quiet w4 e.pa).mono
        intro _ w5 h5
        have h5' := h5.eff
        rw [h4.leaf] at h5'
        exact .inr ⟨trivial, pa, e, rfl, ((h12.eff.trans h3).trans h4).trans h5'⟩

private theorem vmFaultPresent_spec (w : World P O F) (p : P) (n : Nat) {e : Pte} (access : Access)
    (he : w.leaf (.user p) n = some e) :
    Ensures (vmFaultPresent p n e access) w fun r w' ↦ FaultDone p n access w w' r := by
  unfold vmFaultPresent
  simp only [ensures_ite, ensures_pure, ensures_bind]
  constructor
  · rintro ⟨rfl, hcow⟩
    refine ⟨fun _ ↦ .failed _ (by decide) (.refl w), fun hu ↦ ?_⟩
    apply (uvmcowmalloc_spec w p n).mono
    rintro b w1 (⟨rfl, h⟩ | ⟨rfl, pa, e', he', h⟩)
    · exact ⟨fun hb ↦ absurd hb (by decide), fun _ ↦ .failed _ (by decide) h⟩
    · rw [he] at he'
      cases he'
      refine ⟨fun _ ↦ .store _ (.resolved pa e he hcow) ?_ h, fun hb ↦ absurd rfl hb⟩
      simpa [Perm.allows] using hu
  · intro _
    refine ⟨fun _ ↦ .failed _ (by decide) (.refl w), fun ha ↦ ?_⟩
    apply (vmSyncUserPage_spec w p n).mono
    intro b w1 h
    constructor
    · intro hb
      rw [if_pos hb] at h
      exact .sync e he (Bool.eq_true_of_not_eq_false ha) h
    · intro hb
      rw [if_neg hb] at h
      exact .failed _ (by decide) h

variable [DecidableEq O]

omit [DecidableEq P] [DecidableEq O] in
private theorem Vma.perm_allows (v : Vma O) {access : Access} (h : v.allows access = true) :
    v.perm.allows access = true := by
  cases access <;> simpa [Vma.perm, Perm.allows, Vma.allows] using h

private theorem mmapFaultPage_spec (w : World P O F) (p : P) {i : Fin nvma} {v : Vma O} (n : Nat)
    (access : Access) (hv : (w.proc p).vmas i = some v) :
    Ensures (mmapFaultPage p v n access) w fun r w' ↦ FaultDone p n access w w' r := by
  unfold mmapFaultPage
  simp only [ensures_ite, ensures_pure, ensures_bind]
  refine ⟨fun _ ↦ .failed _ (by decide) (.refl w), fun hacc ↦ ?_⟩
  simp only [not_or, Bool.not_eq_false] at hacc
  apply (walk_spec w (.user p) n).mono
  rintro r w0 ⟨rfl, rfl⟩
  cases hleaf : w0.leaf (.user p) n with
  | some e =>
    rw [ensures_pure]
    exact .failed _ (by decide) (.refl w0)
  | none =>
    simp only [ensures_ite, ensures_pure, ensures_bind]
    refine ⟨fun _ ↦ .failed _ (by decide) (.refl w0), fun _ ↦ ?_⟩
    apply (vmaFault_eff w0 v n).mono
    intro r w1 h1
    cases r with
    | none =>
      rw [ensures_pure]
      exact .failed _ (by decide) h1
    | some pa =>
      apply (mappages_spec w1 (.user p) n pa v.perm).bind
      rintro b w2 (⟨rfl, -, h2⟩ | ⟨rfl, h2⟩)
      · rw [h1.leaf] at h2
        simp only [if_true, ensures_bind]
        apply (vmSyncUserPage_spec w2 p n).mono
        intro b w3 h3
        rw [h2.leaf] at h3
        cases b with
        | true =>
          simp only [if_true, ensures_pure] at h3 ⊢
          exact .store _ (.mapping pa i v access hv hacc.1 hacc.2) (v.perm_allows hacc.2)
            ((h1.trans h2).trans h3)
        | false =>
          simp only [Bool.false_eq_true, if_false, ensures_bind, ensures_pure] at h3 ⊢
          apply (uvmunmap_spec w3 (.user p) [n] true).mono
          intro _ w4 h4
          rw [h3.leaf, Leaves.put_drop _ _ _ _ hleaf] at h4
          exact .failed _ (by decide) (((h1.trans h2).trans h3).trans h4)
      · rw [h1.leaf] at h2
        simp only [Bool.false_eq_true, if_false, ensures_bind, ensures_pure]
        apply (kfreePage_quiet w2 pa).mono
        intro _ w3 h3
        have h3' := h3.eff
        rw [h2.leaf] at h3'
        exact .failed _ (by decide) ((h1.trans h2).trans h3')

/-- A fault changes at most the entries of its page, and it is resolved only in an area that allows
the access. -/
theorem vmResolveFault_spec (w : World P O F) (p : P) (address : Nat) (access : Access) :
    Ensures (vmResolveFault p address access) w fun r w' ↦
      FaultDone p (address / pgsize) access w w' r ∧
        (r = .resolved → InArea (w.proc p) address access) := by
  have hlow : address / pgsize * pgsize ≤ address := Nat.div_mul_le_self address pgsize
  have hinvalid : FaultDone p (address / pgsize) access w w .invalid ∧
      ((.invalid : FaultResult) = .resolved → InArea (w.proc p) address access) :=
    ⟨.failed _ (by decide) (.refl w), (by rintro ⟨⟩)⟩
  unfold vmResolveFault
  simp only [ensures_bind, ensures_get, ensures_ite, ensures_pure]
  refine ⟨fun _ ↦ hinvalid, fun hmax ↦ ?_⟩
  split
  · rename_i v hv
    obtain ⟨i, hfind, hi⟩ := Option.bind_eq_some_iff.mp hv
    simp only [ensures_ite, ensures_pure, ensures_bind]
    refine ⟨fun _ ↦ hinvalid, fun hallows ↦ ?_⟩
    have harea : InArea (w.proc p) address access := by
      obtain ⟨v', hi', hc⟩ := exists_of_mmapVmaFind hfind
      cases hi.symm.trans hi'
      exact .inl ⟨i, v, hi, hc, Bool.eq_true_of_not_eq_false hallows⟩
    apply (walk_spec w (.user p) (address / pgsize)).mono
    rintro r w0 ⟨rfl, rfl⟩
    cases hleaf : w0.leaf (.user p) (address / pgsize) with
    | some e => exact (vmFaultPresent_spec w0 p _ access hleaf).mono fun _ _ h ↦ ⟨h, fun _ ↦ harea⟩
    | none => exact (mmapFaultPage_spec w0 p _ access hi).mono fun _ _ h ↦ ⟨h, fun _ ↦ harea⟩
  · simp only [ensures_ite, ensures_pure, ensures_bind]
    constructor
    · intro hheap
      have harea : InArea (w.proc p) address access := .inr (.inl hheap)
      apply (walk_spec w (.user p) (address / pgsize)).mono
      rintro r w0 ⟨rfl, rfl⟩
      cases hleaf : w0.leaf (.user p) (address / pgsize) with
      | some e =>
        exact (vmFaultPresent_spec w0 p _ access hleaf).mono fun _ _ h ↦ ⟨h, fun _ ↦ harea⟩
      | none =>
        simp only [ensures_bind, ensures_ite, ensures_pure]
        apply (uvmFaultAlloc_spec w0 p _ _).mono
        rintro b w1 (⟨rfl, h⟩ | ⟨rfl, pa, h⟩)
        · exact ⟨(by rintro ⟨⟩), fun _ ↦ ⟨.failed _ (by decide) h, (by rintro ⟨⟩)⟩⟩
        · have hin := (hlow.trans_lt hheap).trans_le (le_pgroundup _)
          have hallows : (⟨true, true, true, true, false⟩ : Perm).allows access = true := by
            cases access <;> rfl
          exact ⟨fun _ ↦ ⟨.store _ (.heap pa hin) hallows h, fun _ ↦ harea⟩, fun h ↦ absurd rfl h⟩
    · intro _
      refine ⟨fun hstack ↦ ?_, fun _ ↦ hinvalid⟩
      have hbelow : address < userStackTop := by
        unfold userStackTop at *
        omega
      have harea : InArea (w.proc p) address access := .inr (.inr ⟨hstack.1, hbelow, hstack.2⟩)
      apply (walk_spec w (.user p) (address / pgsize)).mono
      rintro r w0 ⟨rfl, rfl⟩
      cases hleaf : w0.leaf (.user p) (address / pgsize) with
      | some e =>
        exact (vmFaultPresent_spec w0 p _ access hleaf).mono fun _ _ h ↦ ⟨h, fun _ ↦ harea⟩
      | none =>
        simp only [ensures_bind, ensures_ite, ensures_pure]
        apply (uvmFaultAlloc_spec w0 p _ _).mono
        rintro b w1 (⟨rfl, h⟩ | ⟨rfl, pa, h⟩)
        · exact ⟨(by rintro ⟨⟩), fun _ ↦ ⟨.failed _ (by decide) h, (by rintro ⟨⟩)⟩⟩
        · have hin : userStackStart ≤ address / pgsize * pgsize ∧
              address / pgsize * pgsize < userStackTop := by
            have hs := hstack.1
            unfold userStackStart userStackBottom userStackTop maxuva pgsize at *
            omega
          have hallows : (⟨true, true, false, true, false⟩ : Perm).allows access = true := by
            cases access
            · rfl
            · rfl
            · exact absurd rfl hstack.2
          exact ⟨fun _ ↦ ⟨.store _ (.stack pa hin) hallows h, fun _ ↦ harea⟩, fun h ↦ absurd rfl h⟩

end Xv6K210.Vm
