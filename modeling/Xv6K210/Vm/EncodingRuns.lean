import Xv6K210.Vm.Encoding

/-!
# The encoding of entries over whole runs

The calls keep the encoding of the entries. The condition on a run is that no call
maps a device that populates at once without any permission.
-/

namespace Xv6K210.Vm

open Xv6K210.Base Prog Function

variable {P O F : Type} [DecidableEq P] [DecidableEq O] [DecidableEq F]

/-! ### Faults -/

section

omit [DecidableEq O] [DecidableEq F]

private theorem uvmFaultAlloc_encodes (p : P) (n : Nat) {perm : Perm} (hr : perm.r = true) :
    Encodes (uvmFaultAlloc p n perm : Kern P O F Bool) anyway := by
  unfold uvmFaultAlloc
  refine keeps_exit trivial fun _ ↦ ?_
  apply keeps_bind (walk_encodes _ n)
  intro r _
  cases r with
  | some e => exact keeps_pure trivial
  | none =>
    apply keeps_bind kallocPage_encodes
    intro r _
    cases r with
    | none => exact keeps_pure trivial
    | some pa =>
      apply keeps_bind (zeroPage_encodes pa)
      intro _ _
      apply keeps_bind (mappages_encodes _ n (.inl hr))
      intro b _
      apply keeps_ite
      · intro _
        apply keeps_bind (vmSyncUserPage_encodes p n)
        intro b _
        refine keeps_exit trivial fun _ ↦ ?_
        exact keeps_bind (uvmunmap_encodes _ _ _) fun _ _ ↦ keeps_pure trivial
      · intro _
        exact keeps_bind (kfreePage_encodes pa) fun _ _ ↦ keeps_pure trivial

private theorem uvmcowmalloc_encodes (p : P) (n : Nat) :
    Encodes (uvmcowmalloc p n : Kern P O F Bool) anyway := by
  unfold uvmcowmalloc
  apply keeps_bind (walk_encodes _ n)
  intro r hr
  cases r with
  | none => exact keeps_pure trivial
  | some e =>
    have he : ∀ pa, (⟨pa, { e.perm with w := true, cow := false }⟩ : Pte).Sound :=
      (hr e rfl).perm rfl rfl
    refine keeps_exit trivial fun _ ↦ ?_
    apply keeps_get_bind
    intro w _
    apply keeps_ite
    · intro _
      apply keeps_bind (setLeaf_encodes _ n (he e.pa))
      intro _ _
      apply keeps_bind (vmSyncUserPage_encodes p n)
      intro b _
      refine keeps_exit trivial fun _ ↦ ?_
      exact keeps_halt (by decide)
    · intro _
      apply keeps_bind kallocPage_encodes
      intro r _
      cases r with
      | none => exact keeps_pure trivial
      | some pa =>
        apply keeps_bind (copyPage_encodes pa e.pa)
        intro _ _
        apply keeps_bind (setLeaf_encodes _ n (he pa))
        intro _ _
        apply keeps_bind (vmSyncUserPage_encodes p n)
        intro b _
        apply keeps_ite
        · intro _
          exact keeps_bind (kfreePage_encodes e.pa) fun _ _ ↦ keeps_pure trivial
        · intro _
          exact keeps_halt (by decide)

private theorem vmFaultPresent_encodes (p : P) (n : Nat) (e : Pte) (access : Access) :
    Encodes (vmFaultPresent p n e access : Kern P O F FaultResult) anyway := by
  unfold vmFaultPresent
  apply keeps_ite
  · intro _
    refine keeps_exit trivial fun _ ↦ ?_
    apply keeps_bind (uvmcowmalloc_encodes p n)
    intro b _
    refine keeps_exit trivial fun _ ↦ ?_
    exact keeps_pure trivial
  · intro _
    refine keeps_exit trivial fun _ ↦ ?_
    apply keeps_bind (vmSyncUserPage_encodes p n)
    intro b _
    refine keeps_exit trivial fun _ ↦ ?_
    exact keeps_pure trivial

end

/-- `vm_resolve_fault` on a page of heap or stack. -/
def faultLazily (p : P) (n : Nat) (perm : Perm) (access : Access) : Kern P O F FaultResult := do
  match ← walk (.user p) n with
  | some e => vmFaultPresent p n e access
  | none =>
    if ← uvmFaultAlloc p n perm then pure .resolved
    else pure .nomem

omit [DecidableEq F] in
private theorem vmResolveFault_encodes (p : P) (address : Nat) (access : Access) :
    Encodes (vmResolveFault p address access : Kern P O F FaultResult) anyway := by
  have hmissing : ∀ (n : Nat) (perm : Perm), perm.r = true →
      Encodes (faultLazily p n perm access : Kern P O F FaultResult) anyway := by
    intro n perm hr
    apply keeps_bind (walk_encodes _ n)
    intro r _
    cases r with
    | some e => exact vmFaultPresent_encodes p n e access
    | none =>
      apply keeps_bind (uvmFaultAlloc_encodes p n hr)
      intro b _
      refine keeps_exit trivial fun _ ↦ ?_
      exact keeps_pure trivial
  unfold vmResolveFault
  apply keeps_get_bind
  intro w h
  refine keeps_exit trivial fun _ ↦ ?_
  split
  · rename_i v hv
    obtain ⟨i, -, hi⟩ := Option.bind_eq_some_iff.mp hv
    refine keeps_exit trivial fun _ ↦ ?_
    apply keeps_bind (walk_encodes _ _)
    intro r _
    cases r with
    | some e => exact vmFaultPresent_encodes p _ e access
    | none => exact mmapFaultPage_encodes p (h.2 p i v hi) _ access
  · apply keeps_ite
    · intro _
      exact hmissing _ _ rfl
    · intro _
      apply keeps_ite
      · intro _
        exact hmissing _ _ rfl
      · intro _
        exact keeps_pure trivial

section

omit [DecidableEq O] [DecidableEq F]

private theorem uvmdealloc_encodes (t : Tbl P) (oldsz newsz : Nat) (doFree : Bool) :
    Encodes (uvmdealloc t oldsz newsz doFree : Kern P O F Nat) anyway := by
  unfold uvmdealloc
  refine keeps_exit trivial fun _ ↦ ?_
  exact keeps_bind (uvmunmap_encodes _ _ _) fun _ _ ↦ keeps_pure trivial

/-- A change of a process that keeps its mappings or empties them. -/
theorem setProc_encodes (p : P) {f : Proc P O F → Proc P O F}
    (hf : ∀ q, (f q).vmas = q.vmas ∨ ∀ i, (f q).vmas i = none) :
    Encodes (setProc p f : Kern P O F Unit) anyway := by
  unfold setProc
  apply keeps_modify
  intro w h
  refine ⟨h.1, ?_⟩
  intro q i v hv
  dsimp only at hv
  rw [update_apply] at hv
  split_ifs at hv
  · rcases hf (w.proc p) with hsame | hnone
    · rw [hsame] at hv
      exact h.2 p i v hv
    · rw [hnone] at hv
      cases hv
  · exact h.2 q i v hv

private theorem sysSbrk_encodes (p : P) (n : Int) :
    Encodes (sysSbrk p n : Kern P O F (Option Nat)) anyway := by
  unfold sysSbrk
  apply keeps_get_bind
  intro w _
  apply keeps_ite
  · intro _
    refine keeps_exit trivial fun _ ↦ ?_
    exact keeps_bind (setProc_encodes p fun _ ↦ .inl rfl) fun _ _ ↦ keeps_pure trivial
  · intro _
    refine keeps_exit trivial fun _ ↦ ?_
    apply keeps_bind (uvmdealloc_encodes _ _ _ _)
    intro _ _
    apply keeps_bind (uvmdealloc_encodes _ _ _ _)
    intro _ _
    exact keeps_bind (setProc_encodes p fun _ ↦ .inl rfl) fun _ _ ↦ keeps_pure trivial

end

/-! ### Making and freeing address spaces -/

section

omit [DecidableEq O] [DecidableEq F]

private theorem uvmfree_encodes (t : Tbl P) (sz : Nat) :
    Encodes (uvmfree t sz : Kern P O F Unit) anyway := by
  unfold uvmfree
  apply keeps_bind (keeps_doIf fun _ ↦ uvmunmap_encodes _ _ _)
  intro _ _
  exact freewalk_encodes t

private theorem procPagetable_encodes (b : Boot P) (t : Tbl P) (trapframe : Nat) :
    Encodes (procPagetable b t trapframe : Kern P O F Bool) anyway := by
  have hfree : Encodes (uvmfree t 0 >>= fun _ ↦ pure false : Kern P O F Bool) anyway :=
    keeps_bind (uvmfree_encodes t 0) fun _ _ ↦ keeps_pure trivial
  unfold procPagetable
  apply keeps_bind (uvmcreate_encodes t)
  intro b _
  apply keeps_ite
  · intro _
    apply keeps_bind (mappages_encodes t _ (.inl rfl))
    intro b _
    apply keeps_ite
    · intro _
      apply keeps_bind (mappages_encodes t _ (.inl rfl))
      intro b _
      apply keeps_ite
      · intro _
        apply keeps_bind (mappages_encodes t _ (.inl rfl))
        intro b _
        refine keeps_exit trivial fun _ ↦ ?_
        apply keeps_bind (uvmunmap_encodes _ _ _)
        intro _ _
        exact keeps_bind (uvmunmap_encodes _ _ _) fun _ _ ↦ hfree
      · intro _
        exact keeps_bind (uvmunmap_encodes _ _ _) fun _ _ ↦ hfree
    · intro _
      exact hfree
  · intro _
    exact keeps_pure trivial

private theorem procFreepagetable_encodes (t : Tbl P) (sz : Nat) :
    Encodes (procFreepagetable t sz : Kern P O F Unit) anyway := by
  unfold procFreepagetable uvmStackUnmap
  apply keeps_bind (uvmunmap_encodes _ _ _)
  intro _ _
  apply keeps_bind (uvmunmap_encodes _ _ _)
  intro _ _
  apply keeps_bind (uvmunmap_encodes _ _ _)
  intro _ _
  apply keeps_bind (uvmunmap_encodes _ _ _)
  intro _ _
  exact uvmfree_encodes t sz

private theorem ukvminit_encodes (b : Boot P) (t : Tbl P) :
    Encodes (ukvminit b t : Kern P O F Bool) anyway := by
  unfold ukvminit
  apply keeps_bind (uvmcreate_encodes t)
  intro c _
  apply keeps_ite
  · intro _
    apply keeps_bind
    · apply keeps_stopAt
      intro m hm
      exact mappages_encodes t _ (.inl (b.above m hm).2)
    · intro r _
      cases r with
      | none => exact keeps_pure trivial
      | some m => exact keeps_bind (ukvmfree_encodes t) fun _ _ ↦ keeps_pure trivial
  · intro _
    exact keeps_pure trivial

private theorem freeprocvm_encodes (b : Boot P) (p : P) :
    Encodes (freeprocvm b p : Kern P O F Unit) anyway := by
  unfold freeprocvm
  apply keeps_get_bind
  intro w _
  apply keeps_bind (kfreePages_encodes _)
  intro _ _
  apply keeps_bind (keeps_doIf fun _ ↦ procFreepagetable_encodes _ _)
  intro _ _
  have hkern : Encodes (procFreekpagetable b (.kern p) (w.proc p).kstack (w.proc p).sz :
      Kern P O F Unit) anyway := by
    unfold procFreekpagetable uvmStackUnmap
    apply keeps_bind (uvmunmap_encodes _ _ _)
    intro _ _
    apply keeps_bind (uvmunmap_encodes _ _ _)
    intro _ _
    apply keeps_bind (uvmunmap_encodes _ _ _)
    intro _ _
    apply keeps_bind (uvmunmap_encodes _ _ _)
    intro _ _
    exact uvmfree_encodes _ 0
  apply keeps_bind (keeps_doIf fun _ ↦ hkern)
  intro _ _
  exact setProc_encodes p fun _ ↦ .inl rfl

end

private theorem freeproc_encodes (b : Boot P) (p : P) :
    Encodes (freeproc b p : Kern P O F Unit) anyway := by
  unfold freeproc
  apply keeps_bind (vmaDestroyAll_encodes p)
  intro _ _
  apply keeps_bind (freeprocvm_encodes b p)
  intro _ _
  exact setProc_encodes p fun _ ↦ .inl rfl

private theorem allocproc_encodes (b : Boot P) (p : P) :
    Encodes (allocproc b p : Kern P O F Bool) anyway := by
  have hfail : Encodes (freeproc b p >>= fun _ ↦ pure false : Kern P O F Bool) anyway :=
    keeps_bind (freeproc_encodes b p) fun _ _ ↦ keeps_pure trivial
  unfold allocproc
  apply keeps_bind kallocPage_encodes
  intro r _
  cases r with
  | none => exact keeps_pure trivial
  | some tf =>
    refine keeps_bind (setProc_encodes p ?_) ?_
    · intro _
      exact .inl rfl
    intro _ _
    apply keeps_bind (procPagetable_encodes b _ _)
    intro c _
    apply keeps_ite
    · intro _
      apply keeps_bind (ukvminit_encodes b _)
      intro c _
      apply keeps_ite
      · intro _
        apply keeps_bind kallocPage_encodes
        intro r _
        cases r with
        | none => exact hfail
        | some pa =>
          apply keeps_bind (mappages_encodes _ _ (.inl rfl))
          intro c _
          apply keeps_ite
          · intro _
            refine keeps_bind (setProc_encodes p ?_) fun _ _ ↦ keeps_pure trivial
            intro _
            exact .inr fun _ ↦ rfl
          · intro _
            apply keeps_bind (kfreePage_encodes pa)
            intro _ _
            exact keeps_bind (ukvmfree_encodes _) fun _ _ ↦ hfail
      · intro _
        exact hfail
    · intro _
      exact hfail

omit [DecidableEq O] [DecidableEq F] in
private theorem uvmStackInit_encodes (t : Tbl P) :
    Encodes (uvmStackInit t : Kern P O F Bool) anyway := by
  unfold uvmStackInit
  apply keeps_bind kallocPage_encodes
  intro r _
  cases r with
  | none => exact keeps_pure trivial
  | some pa =>
    apply keeps_bind (zeroPage_encodes pa)
    intro _ _
    apply keeps_bind (mappages_encodes t _ (.inl rfl))
    intro b _
    refine keeps_exit trivial fun _ ↦ ?_
    exact keeps_bind (kfreePage_encodes pa) fun _ _ ↦ keeps_pure trivial

omit [DecidableEq O] [DecidableEq F] in
private theorem uvmStackSync_encodes (u k : Tbl P) :
    Encodes (uvmStackSync u k : Kern P O F Unit) anyway := by
  unfold uvmStackSync
  apply keeps_bind (upg2ukpg_encodes u k _)
  intro b _
  refine keeps_exit trivial fun _ ↦ ?_
  exact keeps_halt (by decide)

private theorem userinit_encodes (b : Boot P) (code : Nat → UInt8) :
    Encodes (userinit b code : Kern P O F Unit) anyway := by
  unfold userinit
  apply keeps_bind (allocproc_encodes b _)
  intro c _
  apply keeps_ite
  · intro _
    apply keeps_bind kallocPage_encodes
    intro r _
    cases r with
    | none => exact keeps_halt (by decide)
    | some pa =>
      refine keeps_bind (keeps_modify ?_) ?_
      · intro _ h
        exact h
      intro _ _
      apply keeps_bind (mappages_encodes _ _ (.inl rfl))
      intro c _
      apply keeps_ite
      · intro _
        apply keeps_bind (uvmStackInit_encodes _)
        intro c _
        apply keeps_ite
        · intro _
          refine keeps_bind (setProc_encodes _ ?_) ?_
          · intro _
            exact .inl rfl
          intro _ _
          apply keeps_bind (upg2ukpg_encodes _ _ _)
          intro c _
          apply keeps_ite
          · intro _
            exact uvmStackSync_encodes _ _
          · intro _
            exact keeps_halt (by decide)
        · intro _
          exact keeps_halt (by decide)
      · intro _
        exact keeps_halt (by decide)
  · intro _
    exact keeps_halt (by decide)

/-! ### Fork, exec, exit and wait -/

omit [DecidableEq O] [DecidableEq F] in
private theorem uvmcopyRange_encodes (old new : Tbl P) (start fin : Nat) :
    Encodes (uvmcopyRange old new start fin : Kern P O F Bool) anyway := by
  unfold uvmcopyRange
  apply keeps_bind
  · apply keeps_stopAt
    intro n _
    unfold uvmcopyPage
    apply keeps_bind (walk_encodes _ n)
    intro r hr
    cases r with
    | none => exact keeps_pure trivial
    | some e =>
      have he : (⟨e.pa, if e.perm.w then e.perm.share else e.perm⟩ : Pte).Sound := by
        apply (hr e rfl).perm
        · split_ifs <;> rfl
        · split_ifs <;> rfl
      apply keeps_bind (keeps_doIf fun _ ↦ setLeaf_encodes _ n he)
      intro _ _
      apply keeps_bind (mappages_encodes _ n he)
      intro c _
      apply keeps_ite
      · intro _
        exact keeps_bind (kaddquota_encodes _) fun _ _ ↦ keeps_pure trivial
      · intro _
        exact keeps_pure trivial
  · intro r _
    cases r with
    | none => exact keeps_pure trivial
    | some n => exact keeps_bind (uvmunmap_encodes _ _ _) fun _ _ ↦ keeps_pure trivial

omit [DecidableEq O] [DecidableEq F] in
private theorem forkPage_encodes (p c : P) (v : Vma O) (n : Nat) :
    Encodes (forkPage p c v n : Kern P O F Bool) anyway := by
  unfold forkPage
  apply keeps_bind (walk_encodes _ n)
  intro r hr
  cases r with
  | none => exact keeps_pure trivial
  | some e =>
    have he : (⟨e.pa, if v.flags.testBit 1 ∧
      e.perm.w then e.perm.share else e.perm⟩ : Pte).Sound := by
      apply (hr e rfl).perm
      · split_ifs <;> rfl
      · split_ifs <;> rfl
    have hmark : Encodes (forkMark p n
        ⟨e.pa, if v.flags.testBit 1 ∧ e.perm.w then e.perm.share else e.perm⟩ :
          Kern P O F Unit) anyway := by
      unfold forkMark
      apply keeps_bind (setLeaf_encodes _ n he)
      intro _ _
      apply keeps_bind (upg2ukpg_encodes _ _ _)
      intro c _
      refine keeps_exit trivial fun _ ↦ ?_
      exact keeps_halt (by decide)
    apply keeps_bind (keeps_doIf fun _ ↦ hmark)
    intro _ _
    apply keeps_bind (mappages_encodes _ n he)
    intro c _
    apply keeps_ite
    · intro _
      apply keeps_bind (kaddquota_encodes _)
      intro _ _
      apply keeps_bind (upg2ukpg_encodes _ _ _)
      intro c _
      refine keeps_exit trivial fun _ ↦ ?_
      exact keeps_halt (by decide)
    · intro _
      exact keeps_pure trivial

private theorem vmaFork_encodes (p c : P) : Encodes (vmaFork p c : Kern P O F Bool) anyway := by
  unfold vmaFork
  apply keeps_bind
  · apply keeps_forEach
    intro i _
    unfold forkSlot
    apply keeps_get_bind
    intro w h
    cases hv : (w.proc p).vmas i with
    | none => exact keeps_pure trivial
    | some v =>
      refine keeps_bind (setVma_encodes c i ?_) fun _ _ ↦ mmapObjectGet_encodes _
      rintro x ⟨⟩
      exact h.2 p i v hv
  · intro _ _
    apply keeps_bind
    · apply keeps_stopAt
      intro i _
      unfold forkPages
      apply keeps_get_bind
      intro w _
      split
      · exact keeps_pure trivial
      · apply keeps_bind (keeps_stopAt fun n _ ↦ forkPage_encodes p c _ n)
        intro _ _
        exact keeps_pure trivial
    · intro r _
      cases r with
      | none => exact keeps_pure trivial
      | some i => exact keeps_bind (vmaDestroyAll_encodes c) fun _ _ ↦ keeps_pure trivial

private theorem forkCopy_encodes (p c : P) : Encodes (forkCopy p c : Kern P O F Bool) anyway := by
  unfold forkCopy
  apply keeps_get_bind
  intro w _
  apply keeps_bind (uvmcopyRange_encodes _ _ _ _)
  intro d _
  apply keeps_ite
  · intro _
    refine keeps_bind (setProc_encodes c ?_) ?_
    · intro _
      exact .inl rfl
    intro _ _
    apply keeps_bind (uvmcopyRange_encodes _ _ _ _)
    intro d _
    apply keeps_ite
    · intro _
      apply keeps_bind (vmaFork_encodes p c)
      intro d _
      apply keeps_ite
      · intro _
        apply keeps_bind (upg2ukpg_encodes _ _ _)
        intro d _
        apply keeps_ite
        · intro _
          exact upg2ukpg_encodes _ _ _
        · intro _
          exact keeps_pure trivial
      · intro _
        exact keeps_pure trivial
    · intro _
      exact keeps_pure trivial
  · intro _
    exact keeps_pure trivial

omit [DecidableEq O] [DecidableEq F] in
private theorem forkSync_encodes (p : P) : Encodes (forkSync p : Kern P O F Unit) anyway := by
  unfold forkSync
  apply keeps_get_bind
  intro w _
  apply keeps_bind (upg2ukpg_encodes _ _ _)
  intro d _
  apply keeps_ite
  · intro _
    exact uvmStackSync_encodes _ _
  · intro _
    exact keeps_halt (by decide)

private theorem fork_encodes (b : Boot P) (p c : P) :
    Encodes (fork b p c : Kern P O F Bool) anyway := by
  unfold fork
  apply keeps_bind (setHeld_encodes true)
  intro _ _
  apply keeps_bind (allocproc_encodes b c)
  intro d _
  apply keeps_ite
  · intro _
    apply keeps_bind (forkCopy_encodes p c)
    intro d _
    apply keeps_ite
    · intro _
      apply keeps_bind
      · apply keeps_forEach
        intro fd _
        unfold forkFile
        apply keeps_get_bind
        intro w _
        split
        · exact keeps_pure trivial
        · apply keeps_bind (filedup_encodes _)
          intro _ _
          apply setProc_encodes
          intro _
          exact .inl rfl
      · intro _ _
        refine keeps_bind (setProc_encodes c ?_) ?_
        · intro _
          exact .inl rfl
        intro _ _
        apply keeps_bind (setHeld_encodes false)
        intro _ _
        exact keeps_bind (forkSync_encodes p) fun _ _ ↦ keeps_pure trivial
    · intro _
      apply keeps_bind (forkSync_encodes p)
      intro _ _
      apply keeps_bind (freeproc_encodes b c)
      intro _ _
      exact keeps_bind (setHeld_encodes false) fun _ _ ↦ keeps_pure trivial
  · intro _
    exact keeps_bind (setHeld_encodes false) fun _ _ ↦ keeps_pure trivial

section

omit [DecidableEq O] [DecidableEq F]

private theorem uvmalloc_encodes (t : Tbl P) (oldsz newsz : Nat) :
    Encodes (uvmalloc t oldsz newsz : Kern P O F Nat) anyway := by
  unfold uvmalloc
  refine keeps_exit trivial fun _ ↦ ?_
  refine keeps_exit trivial fun _ ↦ ?_
  apply keeps_bind
  · apply keeps_stopAt
    intro n _
    unfold uvmallocPage
    apply keeps_bind kallocPage_encodes
    intro r _
    cases r with
    | none => exact keeps_pure trivial
    | some pa =>
      apply keeps_bind (zeroPage_encodes pa)
      intro _ _
      apply keeps_bind (mappages_encodes t n (.inl rfl))
      intro d _
      refine keeps_exit trivial fun _ ↦ ?_
      exact keeps_bind (kfreePage_encodes pa) fun _ _ ↦ keeps_pure trivial
  · intro r _
    cases r with
    | none => exact keeps_pure trivial
    | some n => exact keeps_bind (uvmdealloc_encodes _ _ _ _) fun _ _ ↦ keeps_pure trivial

private theorem loadSegs_encodes (t : Tbl P) (sz : Nat) (segs : List Seg) :
    Encodes (loadSegs t sz segs : Kern P O F (Bool × Nat)) anyway := by
  induction segs generalizing sz with
  | nil => exact keeps_pure trivial
  | cons s segs ih =>
    unfold loadSegs
    refine keeps_exit trivial fun _ ↦ ?_
    apply keeps_ite
    · intro _
      exact ih sz
    · intro _
      refine keeps_exit trivial fun _ ↦ ?_
      apply keeps_bind (uvmalloc_encodes t _ _)
      intro sz2 _
      refine keeps_exit trivial fun _ ↦ ?_
      refine keeps_exit trivial fun _ ↦ ?_
      have hload : Encodes (loadseg t s : Kern P O F Bool) anyway := by
        unfold loadseg
        apply keeps_ite
        · intro _
          apply keeps_bind
          · apply keeps_forEach
            intro i _
            unfold loadsegPage
            apply keeps_bind (walk_encodes t _)
            intro r _
            cases r with
            | none => exact keeps_halt (by decide)
            | some e => exact keeps_modify fun _ h ↦ h
          · intro _ _
            exact keeps_pure trivial
        · intro _
          exact keeps_pure trivial
      apply keeps_bind hload
      intro d _
      apply keeps_ite
      · intro _
        exact ih sz2
      · intro _
        exact keeps_pure trivial

private theorem reload_encodes {p : P} {src : Tbl P} (old new : Nat) {msg : String}
    (hmsg : msg ≠ notLeaf) :
    Encodes (do
      uvmunmap (.kern p) (pages 0 (pgroundup old)) false
      uvmStackUnmap (.kern p) false
      if ← upg2ukpg src (.kern p) (pages 0 new) then uvmStackSync src (.kern p)
      else halt msg : Kern P O F Unit) anyway := by
  unfold uvmStackUnmap
  apply keeps_bind (uvmunmap_encodes _ _ _)
  intro _ _
  apply keeps_bind (uvmunmap_encodes _ _ _)
  intro _ _
  apply keeps_bind (upg2ukpg_encodes _ _ _)
  intro d _
  apply keeps_ite
  · intro _
    exact uvmStackSync_encodes _ _
  · intro _
    exact keeps_halt hmsg

end

omit [DecidableEq P] [DecidableEq O] [DecidableEq F] in
private theorem execArgs_encodes (p : P) (argv : List (List UInt8)) :
    Encodes (execArgs p argv : Kern P O F (Option (Nat × Nat))) anyway := by
  have hpoke : ∀ (va : Nat) (bs : List UInt8),
      Encodes (pokeStack p va bs : Kern P O F Unit) anyway := by
    intro va bs
    unfold pokeStack
    apply keeps_bind (walk_encodes _ _)
    intro r _
    cases r with
    | none => exact keeps_halt (by decide)
    | some e => exact keeps_modify fun _ h ↦ h
  unfold execArgs
  split
  · exact keeps_pure trivial
  · apply keeps_bind (keeps_forEach fun x _ ↦ hpoke x.1 x.2)
    intro _ _
    refine keeps_exit trivial fun _ ↦ ?_
    exact keeps_bind (hpoke _ _) fun _ _ ↦ keeps_pure trivial

omit [DecidableEq O] [DecidableEq F] in
/-- The two tables of a process change places. -/
theorem swapTables_encodes (p : P) :
    Encodes (modify fun w : World P O F ↦ { w with
      pt := update (update w.pt (.user p) (w.pt (.image p)))
        (.image p) (w.pt (.user p)) } : Kern P O F Unit) anyway := by
  apply keeps_modify
  intro w h
  refine ⟨?_, h.2⟩
  intro t n e he
  unfold World.leaf at he
  dsimp only at he
  by_cases hi : t = .image p
  · rw [hi, update_self] at he
    exact h.1 _ n e he
  · rw [update_of_ne hi] at he
    by_cases hu : t = .user p
    · rw [hu, update_self] at he
      exact h.1 _ n e he
    · rw [update_of_ne hu] at he
      exact h.1 _ n e he

private theorem exec_encodes (b : Boot P) (p : P) (img : Image) :
    Encodes (exec b p img : Kern P O F (Option (Nat × Nat))) anyway := by
  have hfree : ∀ (sz : Nat), Encodes (procFreepagetable (.image p) sz >>= fun _ ↦ pure none :
      Kern P O F (Option (Nat × Nat))) anyway :=
    fun sz ↦ keeps_bind (procFreepagetable_encodes _ sz) fun _ _ ↦ keeps_pure trivial
  unfold exec
  apply keeps_get_bind
  intro w _
  apply keeps_bind elock_encodes
  intro _ _
  refine keeps_exit trivial fun _ ↦ ?_
  apply keeps_bind (procPagetable_encodes b _ _)
  intro d _
  apply keeps_ite
  · intro _
    apply keeps_bind (loadSegs_encodes _ _ _)
    rintro ⟨loaded, sz⟩ _
    apply keeps_ite
    · intro _
      exact hfree sz
    · intro _
      apply keeps_bind (uvmStackInit_encodes _)
      intro d _
      apply keeps_ite
      · intro _
        unfold execStage
        apply keeps_bind (reload_encodes _ _ (by decide))
        intro _ _
        apply keeps_bind (execArgs_encodes p _)
        intro r _
        cases r with
        | none =>
          unfold execRestore
          apply keeps_bind (reload_encodes _ _ (by decide))
          intro _ _
          exact hfree _
        | some r =>
          apply keeps_bind
          · unfold execCommit
            apply keeps_bind (vmaDestroyAll_encodes p)
            intro _ _
            apply keeps_bind (swapTables_encodes p)
            intro _ _
            refine keeps_bind (setProc_encodes p ?_) fun _ _ ↦ procFreepagetable_encodes _ _
            intro _
            exact .inl rfl
          · intro _ _
            exact keeps_pure trivial
      · intro _
        exact hfree _
  · intro _
    exact keeps_pure trivial

private theorem sysExec_encodes (b : Boot P) (p : P) (img : Image) :
    Encodes (sysExec b p img : Kern P O F (Option (Nat × Nat))) anyway := by
  have hargv : ∀ (args : List (List UInt8)) (pas : List Nat),
      Encodes (argvPages args pas : Kern P O F (Bool × List Nat)) anyway := by
    intro args
    induction args with
    | nil =>
      intro pas
      exact keeps_pure trivial
    | cons arg args ih =>
      intro pas
      unfold argvPages
      apply keeps_bind kallocPage_encodes
      intro r _
      cases r with
      | none => exact keeps_pure trivial
      | some pa => exact ih _
  unfold sysExec
  apply keeps_bind (hargv _ _)
  rintro ⟨fetched, pas⟩ _
  apply keeps_ite
  · intro _
    apply keeps_bind (exec_encodes b p img)
    intro r _
    exact keeps_bind (kfreePages_encodes pas) fun _ _ ↦ keeps_pure trivial
  · intro _
    exact keeps_bind (kfreePages_encodes pas) fun _ _ ↦ keeps_pure trivial

private theorem exit_encodes (b : Boot P) (p : P) :
    Encodes (exit b p : Kern P O F Unit) anyway := by
  unfold exit
  apply keeps_ite
  · intro _
    exact keeps_halt (by decide)
  · intro _
    apply keeps_bind
    · apply keeps_forEach
      intro fd _
      unfold exitFile
      apply keeps_get_bind
      intro w _
      split
      · exact keeps_pure trivial
      · apply keeps_bind (fileclose_encodes _)
        intro _ _
        apply setProc_encodes
        intro _
        exact .inl rfl
    · intro _ _
      apply keeps_bind (vmaDestroyAll_encodes p)
      intro _ _
      apply keeps_bind
      · apply keeps_modify
        intro w h
        refine ⟨h.1, ?_⟩
        intro q i v hv
        dsimp only at hv
        split_ifs at hv
        · exact h.2 q i v hv
        · exact h.2 q i v hv
      · intro _ _
        apply setProc_encodes
        intro _
        exact .inl rfl

private theorem waitFor_encodes (b : Boot P) (p c : P) (touched : List Nat) (stored : Bool) :
    Encodes (waitFor b p c touched stored : Kern P O F Bool) anyway := by
  unfold waitFor
  apply keeps_bind (setHeld_encodes true)
  intro _ _
  apply keeps_bind (freeprocvm_encodes b c)
  intro _ _
  apply keeps_bind
  · apply keeps_forEach
    intro a _
    exact keeps_bind (vmResolveFault_encodes p a _) fun _ _ ↦ keeps_pure trivial
  · intro _ _
    apply keeps_bind (keeps_doIf fun _ ↦ freeproc_encodes b c)
    intro _ _
    exact keeps_bind (setHeld_encodes false) fun _ _ ↦ keeps_pure trivial

/-! ### Mmap -/

omit [DecidableEq O] [DecidableEq F] in
private theorem mmapMapCreate_encodes (p : P) (addr length prot flags : Nat) (type : VmaType)
    (object : Option O) (offset : Nat) :
    Encodes (mmapMapCreate p addr length prot flags type object offset :
      Kern P O F (Option Nat)) anyway := by
  unfold mmapMapCreate
  apply keeps_get_bind
  intro w _
  refine keeps_exit trivial fun _ ↦ ?_
  refine keeps_exit trivial fun _ ↦ ?_
  refine keeps_exit trivial fun hwr ↦ ?_
  refine keeps_exit trivial fun _ ↦ ?_
  split
  · exact keeps_pure trivial
  · refine keeps_exit trivial fun _ ↦ ?_
    refine keeps_bind (setVma_encodes p _ ?_) fun _ _ ↦ keeps_pure trivial
    rintro x ⟨⟩ hw
    by_contra hr
    exact hwr ⟨hw, hr⟩

/-- An object is made, then a mapping of it; without the mapping the object goes. -/
theorem mapObject_encodes (p : P) (addr length prot flags : Nat) (type : VmaType)
    (file : Option F) (offset : Nat) :
    Encodes (do
      match ← mmapObjectCreate type file flags 0 with
      | none => pure none
      | some o =>
        match ← mmapMapCreate p addr length prot flags type (some o) offset with
        | none =>
          mmapObjectPut o
          pure none
        | some start => pure (some start) : Kern P O F (Option Nat)) anyway := by
  apply keeps_bind (mmapObjectCreate_encodes _ _ _ _)
  intro r _
  cases r with
  | none => exact keeps_pure trivial
  | some o =>
    apply keeps_bind (mmapMapCreate_encodes _ _ _ _ _ _ _ _)
    intro r _
    cases r with
    | none => exact keeps_bind (mmapObjectPut_encodes o) fun _ _ ↦ keeps_pure trivial
    | some start => exact keeps_pure trivial

omit [DecidableEq F] in
/-- A mapping with some permission is populated with sound entries. -/
theorem mmapPopulate_encodes (p : P) (i : Fin nvma) {v : Vma O} (hv : v.Sound)
    (hlt : v.prot < 8) (hne : v.prot ≠ 0) :
    Encodes (mmapPopulate p i v : Kern P O F Bool) anyway := by
  unfold mmapPopulate
  refine keeps_exit trivial fun _ ↦ ?_
  apply keeps_bind
  · apply keeps_stopAt
    intro n _
    unfold populatePage
    apply keeps_bind (walk_encodes _ n)
    intro r _
    cases r with
    | some e => exact keeps_pure trivial
    | none =>
      apply keeps_bind (vmaFault_encodes v n)
      intro r _
      cases r with
      | none => exact keeps_pure trivial
      | some pa =>
        apply keeps_bind (mappages_encodes _ n (hv.perm_of_ne_zero hlt hne pa))
        intro c _
        apply keeps_ite
        · intro _
          apply keeps_bind (vmSyncUserPage_encodes p n)
          intro c _
          refine keeps_exit trivial fun _ ↦ ?_
          exact keeps_halt (by decide)
        · intro _
          exact keeps_bind (kfreePage_encodes pa) fun _ _ ↦ keeps_pure trivial
  · intro r _
    cases r with
    | none =>
      refine keeps_bind (setVma_encodes p i ?_) fun _ _ ↦ keeps_pure trivial
      rintro x ⟨⟩
      exact hv
    | some n => exact keeps_bind (vmaUnmapPages_encodes p _ _) fun _ _ ↦ keeps_pure trivial

private theorem mapDeviceObject_encodes (p : P) (i : Fin nvma) {v : Vma O} (start length : Nat)
    (f : F)
    (offset : Nat) {populate : Bool} (hv : v.Sound) (hlt : v.prot < 8)
    (hne : populate = true → v.prot ≠ 0) :
    Encodes (mapDeviceObject p i v start length f offset populate :
      Kern P O F (Option Nat)) anyway := by
  have hset : ∀ x : Vma O, x.prot = v.prot →
      Encodes (setVma p i (some x) : Kern P O F Unit) anyway := by
    intro x hx
    apply setVma_encodes
    rintro y ⟨⟩
    unfold Vma.Sound at hv ⊢
    rw [hx]
    exact hv
  have hfail : Encodes (do
      let _ ← vmaUnmap p start length
      pure none : Kern P O F (Option Nat)) anyway :=
    keeps_bind (vmaUnmap_encodes p _ _) fun _ _ ↦ keeps_pure trivial
  unfold mapDeviceObject
  refine keeps_bind (hset _ rfl) ?_
  intro _ _
  apply keeps_bind (mmapObjectCreate_encodes _ _ _ _)
  intro r _
  cases r with
  | none => exact hfail
  | some o =>
    refine keeps_bind (hset _ rfl) ?_
    intro _ _
    apply keeps_ite
    · intro hpop
      have hpopulate : Encodes (mmapPopulate p i { v with populate := populate, object := some o } :
          Kern P O F Bool) anyway := mmapPopulate_encodes p i hv hlt (hne hpop)
      apply keeps_bind hpopulate
      intro c _
      refine keeps_exit trivial fun _ ↦ ?_
      exact hfail
    · intro _
      exact keeps_pure trivial

omit [DecidableEq P] [DecidableEq O] [DecidableEq F] in
/-- A device looks at the length, the permissions and the flags of a mapping. -/
theorem DevMmap.mmap_fresh (d : DevMmap) (start length prot flags offset : Nat) :
    d.mmap (Vma.fresh .kbuf start length prot flags (none : Option O) offset) offset =
      d.mmap (Vma.fresh .kbuf 0 length prot flags (none : Option O) offset) offset := by
  simp [DevMmap.mmap, Vma.fresh]

/-- A device is mapped: its pages are not without permission, or not populated at once. -/
theorem vmaMapDevice_encodes {w : World P O F} {p : P} (addr length prot flags : Nat) (f : F)
    (d : DevMmap) (offset : Nat) (h : Encoded w) (hs : SpaceAt w p)
    (hne : d.mmap (Vma.fresh .kbuf 0 length prot flags (none : Option O) offset) offset =
      some true → prot ≠ 0) :
    KeepsAt (· ≠ notLeaf) Encoded (vmaMapDevice p addr length prot flags f d offset) w
      anyway := by
  have hnone : ∀ {w1 : World P O F}, Encoded w1 →
      KeepsAt (· ≠ notLeaf) Encoded (pure none : Kern P O F (Option Nat)) w1 anyway :=
    fun h1 ↦ (keeps_pure trivial).at h1
  have hfail : ∀ {w1 : World P O F} (start : Nat), Encoded w1 →
      KeepsAt (· ≠ notLeaf) Encoded (do
        let _ ← vmaUnmap p start length
        pure none : Kern P O F (Option Nat)) w1 anyway :=
    fun start h1 ↦ (keeps_bind (vmaUnmap_encodes p _ _) fun _ _ ↦ keeps_pure trivial).at h1
  unfold vmaMapDevice
  apply keepsAt_get_bind
  apply keepsAt_ite (fun _ ↦ hnone h)
  intro _
  apply keepsAt_ite (fun _ ↦ hnone h)
  intro _
  apply keepsAt_ite (fun _ ↦ hnone h)
  intro _
  apply keepsAt_bind (mmapMapCreate_encodes p addr length prot flags .kbuf none offset) h
    (mmapMapCreate_spec addr length prot flags .kbuf none offset hs)
  rintro r w1 h1 - (⟨rfl, -⟩ | ⟨i, start, rfl, -, hlt, hwr, h2, hs1⟩)
  · exact hnone h1
  · apply keepsAt_get_bind
    split
    · exact hfail start h1
    · rename_i j hj
      have hi : (w1.proc p).vmas i =
          some (.fresh .kbuf start length prot flags none offset) := by
        rw [h2.vmas, update_self]
      obtain rfl := hs1.find hi hj
      rw [hi]
      apply keepsAt_ite (fun _ ↦ hfail start h1)
      intro _
      split
      · exact hfail start h1
      · rename_i populate hpop
        apply Keeps.at _ h1
        apply mapDeviceObject_encodes
        · exact h1.2 p j _ hi
        · exact hlt
        · rintro rfl
          rw [DevMmap.mmap_fresh] at hpop
          exact hne hpop

omit [DecidableEq P] [DecidableEq O] [DecidableEq F] in
/-- The call maps, without any permission, a device that populates the mapping at once. -/
def BareMap (w : World P O F) : Call P F → Prop
  | .mmap p _ length prot flags fd offset =>
    prot = 0 ∧ ∃ (i : Fin nofile) (f : F) (d : DevMmap), fd = i ∧
      (w.proc p).ofile i = some f ∧ (w.file f).type = .device d ∧
      d.mmap (Vma.fresh .kbuf 0 length.toNat prot flags (none : Option O) offset.toNat)
        offset.toNat = some true
  | _ => False

private theorem sysMmap_encodes {w : World P O F} {p : P} (addr : Nat) (length : Int)
    (prot flags : Nat) (fd offset : Int) (h : Encoded w) (hs : SpaceAt w p)
    (hbare : ¬ BareMap w (.mmap p addr length prot flags fd offset)) :
    KeepsAt (· ≠ notLeaf) Encoded (sysMmap p addr length prot flags fd offset) w anyway := by
  have hnone : KeepsAt (· ≠ notLeaf) Encoded (pure none : Kern P O F (Option Nat)) w anyway :=
    (keeps_pure trivial).at h
  have hfile : ∀ f, Encodes (vmaMapFile p addr length.toNat prot flags f offset.toNat :
      Kern P O F (Option Nat)) anyway := by
    intro f
    unfold vmaMapFile
    apply keeps_get_bind
    intro w _
    apply keeps_ite (fun _ ↦ keeps_pure trivial)
    intro _
    apply keeps_ite (fun _ ↦ keeps_pure trivial)
    intro _
    apply keeps_ite (fun _ ↦ keeps_pure trivial)
    intro _
    apply keeps_ite (fun _ ↦ keeps_pure trivial)
    intro _
    exact mapObject_encodes _ _ _ _ _ _ _ _
  unfold sysMmap
  apply keepsAt_get_bind
  apply keepsAt_ite (fun _ ↦ hnone)
  intro _
  apply keepsAt_ite
  · intro _
    apply keepsAt_ite (fun _ ↦ hnone)
    intro _
    apply Keeps.at _ h
    unfold vmaMapAnon
    apply keeps_ite (fun _ ↦ keeps_pure trivial)
    intro _
    exact mapObject_encodes _ _ _ _ _ _ _ _
  · intro _
    split
    · rename_i hfd
      split
      · exact hnone
      · rename_i f hf
        split
        · rename_i d hd
          apply vmaMapDevice_encodes _ _ _ _ _ _ _ h hs
          intro hpop hprot
          apply hbare
          exact ⟨hprot, ⟨fd.toNat, hfd.2⟩, f, d, (Int.toNat_of_nonneg hfd.1).symm, hf, hd, hpop⟩
        · exact (hfile f).at h
    · exact hnone

/-! ### Runs -/

/-- The state in which the routine of a call starts. -/
def World.ready (w : World P O F) (e : Event P O F) : World P O F :=
  { w with answers := e.answers, io := e.io, slept := false }

/-- A call keeps the encoding and does not run into the panic. -/
theorem runCall_encodes (b : Boot P) {w : World P O F} {call : Call P F} (h : Encoded w)
    (hs : Spaces w) (hen : Enabled b w call) (hbare : ¬ BareMap w call) :
    KeepsAt (· ≠ notLeaf) Encoded (runCall b call) w anyway := by
  have hdrop : ∀ {α : Type} {x : Kern P O F α}, Encodes x anyway →
      KeepsAt (· ≠ notLeaf) Encoded (do let _ ← x) w anyway :=
    fun hx ↦ (keeps_bind hx fun _ _ ↦ keeps_pure trivial).at h
  have hstore : ∀ (t : Tbl P) (va : Nat) (x : UInt8),
      Encodes (store t va x : Kern P O F Unit) anyway := by
    intro t va x
    unfold store
    apply keeps_get_bind
    intro w h
    split
    · exact keeps_pure trivial
    · apply keeps_ite
      · intro _
        exact keeps_set h
      · intro _
        exact keeps_pure trivial
  cases call with
  | userinit code => exact (userinit_encodes b code).at h
  | openFile p fd f x =>
    apply Keeps.at _ h
    apply keeps_modify
    intro w h
    refine ⟨h.1, ?_⟩
    intro q i v hv
    dsimp only at hv
    rw [update_apply] at hv
    split_ifs at hv
    · exact h.2 p i v hv
    · exact h.2 q i v hv
  | dup p f fd =>
    apply Keeps.at _ h
    refine keeps_bind (setProc_encodes p ?_) fun _ _ ↦ filedup_encodes f
    intro _
    exact .inl rfl
  | close p fd f =>
    apply Keeps.at _ h
    refine keeps_bind (setProc_encodes p ?_) fun _ _ ↦ fileclose_encodes f
    intro _
    exact .inl rfl
  | mmap p addr length prot flags fd offset =>
    exact (sysMmap_encodes addr length prot flags fd offset h (hs p hen).space hbare).drop
  | munmap p addr length =>
    apply hdrop
    unfold sysMunmap
    refine keeps_exit trivial fun _ ↦ ?_
    exact vmaUnmap_encodes p _ _
  | sbrk p n => exact hdrop (sysSbrk_encodes p n)
  | fault p address access => exact hdrop (vmResolveFault_encodes p address access)
  | store p va x => exact (hstore _ va x).at h
  | copyout p va x => exact (hstore _ va x).at h
  | fork p c => exact hdrop (fork_encodes b p c)
  | exec p img => exact hdrop (sysExec_encodes b p img)
  | exit p => exact (exit_encodes b p).at h
  | wait p c touched stored => exact hdrop (waitFor_encodes b p c touched stored)

/-- A call that returns and maps no populating device without permission. -/
def ModestStep (b : Boot P) (w : World P O F) (e : Event P O F) (w' : World P O F) : Prop :=
  Step b w e w' ∧ ¬ BareMap w e.call

private theorem encoded_of_runs {b : Boot P} {data : Nat → List UInt8} {es : List (Event P O F)}
    {w : World P O F} (h : Runs (ModestStep b) (World.boot data) es w) :
    Encoded w ∧ Spaces w := by
  apply Runs.invariant (fun w ↦ Encoded w ∧ Spaces w) _ h
  · refine ⟨⟨?_, ?_⟩, ?_⟩
    · intro t n e he
      simp [World.leaf, World.boot, PageTable.null] at he
    · intro p i v hv
      cases hv
    · intro p hp
      cases hp
  · rintro w e w' ⟨henc, hs⟩ ⟨hstep, hbare⟩
    have hready : Spaces (w.ready e) := hs.quiet (.of_eq rfl rfl rfl rfl rfl)
    refine ⟨?_, hs.step hstep⟩
    exact ((runCall_encodes b (w := w.ready e) henc hready hstep.1 hbare).of_ok () w' hstep.2).1

/-- In a run without a call that maps a populating device without permission, every user entry and
every kernel entry of a process has one of the R, W and X bits, and no such call that is made
next, from any process, panics in `uvmunmap` on an entry that is not a leaf. -/
theorem leaf_encoding {b : Boot P} {data : Nat → List UInt8} {es : List (Event P O F)}
    {w : World P O F} (h : Runs (ModestStep b) (World.boot data) es w) :
    (∀ p n e, w.leaf (.user p) n = some e → e.perm.r ∨ e.perm.w ∨ e.perm.x) ∧
    (∀ p n e, w.leaf (.kern p) n = some e → e.perm.r ∨ e.perm.w ∨ e.perm.x) ∧
    ∀ e : Event P O F, Enabled b w e.call → ¬ BareMap w e.call →
      runCall b e.call (w.ready e) ≠ .error notLeaf := by
  obtain ⟨henc, hs⟩ := encoded_of_runs h
  have hbits : ∀ e : Pte, e.Sound → e.perm.r ∨ e.perm.w ∨ e.perm.x := by
    rintro e (hr | hx)
    · exact .inl hr
    · exact .inr (.inr hx)
  refine ⟨?_, ?_, ?_⟩
  · intro p n e he
    exact hbits e (henc.1 _ n e he)
  · intro p n e he
    exact hbits e (henc.1 _ n e he)
  · intro e hen hbare herr
    have hready : Spaces (w.ready e) := hs.quiet (.of_eq rfl rfl rfl rfl rfl)
    exact (runCall_encodes b (w := w.ready e) henc hready hen hbare).of_error _ herr rfl

private theorem modest_of_runs {b : Boot P} {es : List (Event P O F)} {w w' : World P O F}
    (h : Runs (Step b) w es w') (hes : ∀ e ∈ es, ∀ w : World P O F, ¬ BareMap w e.call) :
    Runs (ModestStep b) w es w' := by
  induction h with
  | nil w => exact .nil w
  | @cons w w1 w' e es head _ ih =>
    apply Runs.cons ⟨head, hes e List.mem_cons_self w⟩
    exact ih fun e' he' ↦ hes e' (List.mem_cons_of_mem e he')

/-- The first process opens a device that populates at once and maps a page of it. -/
def mapDevice (prot : Nat) : List (Event Bool Nat Nat) :=
  [Call.event (.userinit fun _ ↦ 0) 10,
    Call.event (.openFile false ⟨3, by decide⟩ 7 ⟨1, .device .eagerdev, true, true, 0⟩) 30,
    Call.event (.mmap false 0 4096 prot 1 3 0) 30]

/-- With `PROT_READ` the entry of the page, the last one below the stack, can be read. -/
theorem leaf_encoding_small : ∃ w : World Bool Nat Nat,
    Runs (ModestStep .small) (World.boot fun _ ↦ []) (mapDevice 1) w ∧
    ∃ e, w.leaf (.kern false) (mmapTop / pgsize - 1) = some e ∧
      (e.perm.r ∨ e.perm.w ∨ e.perm.x) := by
  have hafter : ((World.boot fun _ ↦ []).after Boot.small (mapDevice 1)).any fun w ↦
      (w.leaf (.kern false) (mmapTop / pgsize - 1)).isSome := by
    decide +kernel
  obtain ⟨w, hrun, hsome⟩ := World.runs_of_after hafter
  have hmodest : Runs (ModestStep .small) (World.boot fun _ ↦ []) (mapDevice 1) w := by
    apply modest_of_runs hrun
    intro e he w' hbare
    simp only [mapDevice, List.mem_cons, List.not_mem_nil, or_false] at he
    rcases he with rfl | rfl | rfl
    · exact hbare
    · exact hbare
    · exact absurd hbare.1 (by decide)
  obtain ⟨e, he⟩ := Option.isSome_iff_exists.mp hsome
  exact ⟨w, hmodest, e, he, (leaf_encoding hmodest).2.1 false _ e he⟩

/-- With `PROT_NONE` the entry has none of the bits, and `munmap` panics. -/
theorem not_leaf_encoding_small : ∃ w : World Bool Nat Nat,
    Runs (Step .small) (World.boot fun _ ↦ []) (mapDevice 0) w ∧
    (∃ e, w.leaf (.user false) (mmapTop / pgsize - 1) = some e ∧
      ¬ (e.perm.r ∨ e.perm.w ∨ e.perm.x)) ∧
    runCall Boot.small (.munmap false (mmapTop - pgsize) 4096) w = .error notLeaf := by
  let bare (w : World Bool Nat Nat) : Bool :=
    (w.leaf (.user false) (mmapTop / pgsize - 1)).any fun e ↦
      !(e.perm.r || e.perm.w || e.perm.x)
  let panics (w : World Bool Nat Nat) : Bool :=
    match runCall Boot.small (.munmap false (mmapTop - pgsize) 4096) w with
    | .ok _ => false
    | .error msg => msg == notLeaf
  have hafter : ((World.boot fun _ ↦ []).after Boot.small (mapDevice 0)).any fun w ↦
      bare w && panics w := by
    decide +kernel
  obtain ⟨w, hrun, hgood⟩ := World.runs_of_after hafter
  obtain ⟨hbare, hpanics⟩ := Bool.and_eq_true_iff.mp hgood
  refine ⟨w, hrun, ?_, ?_⟩
  · obtain ⟨e, he, hbits⟩ := (Option.any_eq_true _ _).mp hbare
    exact ⟨e, he, by simpa [and_assoc] using hbits⟩
  · dsimp only [panics] at hpanics
    split at hpanics
    · cases hpanics
    · rename_i msg heq
      rw [heq, eq_of_beq hpanics]

end Xv6K210.Vm
