import Xv6K210.Vm.Map

/-!
# New address spaces

The routines that make and free page tables change no other table. A slot that
`allocproc` fills has no entry for user memory, and whether it succeeds or not it affects no
other process.
-/

namespace Xv6K210.Vm

open Xv6K210.Base Prog Function

variable {P O F : Type}

/-! ### New tables -/

/-- Only the table `t` changed. -/
structure At (t : Tbl P) (w w' : World P O F) : Prop where
  proc : w'.proc = w.proc
  obj : ∀ o, (w'.obj o).map MmapObject.head = (w.obj o).map MmapObject.head
  file : w'.file = w.file
  held : w'.held = w.held
  leaf : ∀ t', t' ≠ t → w'.leaf t' = w.leaf t'
  there : ∀ t', t' ≠ t → w'.there t' = w.there t'

/-- Nothing changes. -/
theorem At.refl (t : Tbl P) (w : World P O F) : At t w w :=
  ⟨rfl, fun _ ↦ rfl, rfl, rfl, fun _ _ ↦ rfl, fun _ _ ↦ rfl⟩

/-- Steps on one table compose. -/
theorem At.trans {t : Tbl P} {w w' w'' : World P O F} (h : At t w w') (h' : At t w' w'') :
    At t w w'' := by
  constructor
  · rw [h'.proc, h.proc]
  · intro o
    rw [h'.obj, h.obj]
  · rw [h'.file, h.file]
  · rw [h'.held, h.held]
  · intro t' ht
    rw [h'.leaf t' ht, h.leaf t' ht]
  · intro t' ht
    rw [h'.there t' ht, h.there t' ht]

/-- An effect on one table. -/
theorem Eff.at {t : Tbl P} {w w' : World P O F} {L : Leaves P} (h : Eff w w' L)
    (hL : ∀ t', t' ≠ t → L t' = w.leaf t') : At t w w' :=
  ⟨h.core.proc, h.core.obj, h.core.file, h.core.held, fun t' ht ↦ by rw [h.leaf, hL t' ht],
    fun t' _ ↦ h.core.there t'⟩

/-- A quiet step changes no table. -/
theorem Quiet.at (t : Tbl P) {w w' : World P O F} (h : Quiet w w') : At t w w' :=
  h.eff.at fun _ _ ↦ rfl

/-- Routines that change the table `t` only, in sequence. -/
theorem ensures_at_bind {α β : Type} {t : Tbl P} {x : Kern P O F α} {f : α → Kern P O F β}
    {w : World P O F} (hx : Ensures x w fun _ w' ↦ At t w w')
    (hf : ∀ a w', Ensures (f a) w' fun _ w'' ↦ At t w' w'') :
    Ensures (x >>= f) w fun _ w' ↦ At t w w' := by
  apply hx.bind
  intro a w' h
  apply (hf a w').mono
  intro _ w'' h'
  exact h.trans h'

variable [DecidableEq P]

private theorem setPt_at (w : World P O F) (t : Tbl P) (f : PageTable → PageTable) :
    Ensures (setPt t f) w fun _ w' ↦ At t w w' := by
  unfold setPt
  rw [ensures_modify]
  refine ⟨rfl, fun _ ↦ rfl, rfl, rfl, ?_, ?_⟩
  · intro t' ht
    unfold World.leaf
    dsimp only
    rw [update_of_ne ht]
  · intro t' ht
    unfold World.there
    dsimp only
    rw [update_of_ne ht]

/-- `uvmunmap` changes one table. -/
theorem uvmunmap_at (w : World P O F) (t : Tbl P) (ns : List Nat) (doFree : Bool) :
    Ensures (uvmunmap t ns doFree) w fun _ w' ↦ At t w w' := by
  apply (uvmunmap_spec w t ns doFree).mono
  intro _ w' h
  exact h.at fun t' ht ↦ Leaves.drop_ne _ ht _

/-- `mappages` changes one table. -/
theorem mappages_at (w : World P O F) (t : Tbl P) (n pa : Nat) (perm : Perm) :
    Ensures (mappages t n pa perm) w fun _ w' ↦ At t w w' := by
  apply (mappages_spec w t n pa perm).mono
  rintro _ w' (⟨-, -, h⟩ | ⟨-, h⟩)
  · exact h.at fun t' ht ↦ Leaves.put_ne _ ht _ _
  · exact h.at fun _ _ ↦ rfl

private theorem freewalk_at (w : World P O F) (t : Tbl P) :
    Ensures (freewalk t) w fun _ w' ↦ At t w w' := by
  unfold freewalk
  rw [ensures_bind, ensures_get, ensures_ite]
  refine ⟨fun _ ↦ ?_, fun _ ↦ ensures_halt⟩
  apply ensures_at_bind ((kfreePages_quiet w _).mono fun _ _ h ↦ h.at t)
  intro _ w1
  exact setPt_at w1 t _

/-- `ukvmfree` changes one table. -/
theorem ukvmfree_at (w : World P O F) (t : Tbl P) :
    Ensures (ukvmfree t) w fun _ w' ↦ At t w w' := by
  unfold ukvmfree
  rw [ensures_bind, ensures_get]
  apply ensures_at_bind ((kfreePages_quiet w _).mono fun _ _ h ↦ h.at t)
  intro _ w1
  exact setPt_at w1 t _

private theorem uvmfree_at (w : World P O F) (t : Tbl P) (sz : Nat) :
    Ensures (uvmfree t sz) w fun _ w' ↦ At t w w' := by
  unfold uvmfree
  have hunmap : Ensures (doIf (0 < sz) (uvmunmap t (pages 0 (pgroundup sz)) true)) w
      fun _ w' ↦ At t w w' := by
    rw [ensures_doIf]
    exact ⟨fun _ ↦ uvmunmap_at w t _ true, fun _ ↦ .refl t w⟩
  apply ensures_at_bind hunmap
  intro _ w1
  exact freewalk_at w1 t

/-- `proc_freepagetable` changes one table. -/
theorem procFreepagetable_at (w : World P O F) (t : Tbl P) (sz : Nat) :
    Ensures (procFreepagetable t sz) w fun _ w' ↦ At t w w' := by
  unfold procFreepagetable uvmStackUnmap
  apply ensures_at_bind (uvmunmap_at w t _ true)
  intro _ w1
  apply ensures_at_bind (uvmunmap_at w1 t _ false)
  intro _ w2
  apply ensures_at_bind (uvmunmap_at w2 t _ false)
  intro _ w3
  apply ensures_at_bind (uvmunmap_at w3 t _ false)
  intro _ w4
  exact uvmfree_at w4 t sz

/-- `proc_freekpagetable` changes one table. -/
theorem procFreekpagetable_at (b : Boot P) (w : World P O F) (t : Tbl P) (kstack sz : Nat) :
    Ensures (procFreekpagetable b t kstack sz) w fun _ w' ↦ At t w w' := by
  unfold procFreekpagetable uvmStackUnmap
  apply ensures_at_bind (uvmunmap_at w t _ false)
  intro _ w1
  apply ensures_at_bind (uvmunmap_at w1 t _ false)
  intro _ w2
  apply ensures_at_bind (uvmunmap_at w2 t _ false)
  intro _ w3
  apply ensures_at_bind (uvmunmap_at w3 t _ true)
  intro _ w4
  exact uvmfree_at w4 t 0

/-- A table that has no entry for user memory. -/
structure Blank (t : Tbl P) (w : World P O F) : Prop where
  there : w.there t = true
  leaf : ∀ n, UserPage n → w.leaf t n = none

/-- `uvmcreate` makes a table without entries. -/
theorem uvmcreate_spec (w : World P O F) (t : Tbl P) :
    Ensures (uvmcreate t) w fun ok w' ↦
      At t w w' ∧ (ok = true → w'.there t = true ∧ ∀ n, w'.leaf t n = none) := by
  unfold uvmcreate
  apply (kallocPage_quiet w).bind
  intro r w1 h1
  cases r with
  | none =>
    rw [ensures_pure]
    exact ⟨h1.at t, by simp⟩
  | some pa =>
    simp only [ensures_bind, ensures_pure]
    apply (zeroPage_quiet w1 pa).mono
    intro _ w2 h2
    refine ((setPt_at w2 t _).and ((ensures_modify.mpr ?_ :
      Ensures (setPt t _) w2 fun _ w' ↦ w'.there t = true ∧ ∀ n, w'.leaf t n = none))).mono ?_
    · simp [World.there, World.leaf]
    · rintro _ w3 ⟨h3, hblank⟩
      exact ⟨((h1.trans h2).at t).trans h3, fun _ ↦ hblank⟩

/-- `mappages` of a page outside user memory. -/
theorem mappages_blank {w : World P O F} {t : Tbl P} {n pa : Nat} {perm : Perm}
    (hn : ¬ UserPage n) (h : Blank t w) :
    Ensures (mappages t n pa perm) w fun _ w' ↦ At t w w' ∧ Blank t w' := by
  refine ((mappages_at w t n pa perm).and (mappages_spec w t n pa perm)).mono ?_
  rintro _ w' ⟨hat, ⟨-, -, h'⟩ | ⟨-, h'⟩⟩
  · refine ⟨hat, by rw [h'.core.there, h.there], ?_⟩
    intro m hm
    rw [h'.leaf, Leaves.put_apply, if_neg]
    · exact h.leaf m hm
    · rintro ⟨-, rfl⟩
      exact hn hm
  · refine ⟨hat, by rw [h'.core.there, h.there], ?_⟩
    intro m hm
    rw [h'.leaf]
    exact h.leaf m hm

omit [DecidableEq P] in
/-- User pages lie below `MAXUVA`. -/
theorem not_userPage {n : Nat} (h : maxuva / pgsize ≤ n) : ¬ UserPage n := by
  unfold UserPage maxuva pgsize at *
  omega

/-- `proc_pagetable` makes a table without entries for user memory. -/
theorem procPagetable_spec (b : Boot P) (w : World P O F) (t : Tbl P) (trapframe : Nat) :
    Ensures (procPagetable b t trapframe) w fun ok w' ↦
      At t w w' ∧ (ok = true → Blank t w') := by
  have hfail : ∀ (w1 : World P O F) (x : Kern P O F Unit), At t w w1 →
      (Ensures x w1 fun _ w' ↦ At t w1 w') →
      Ensures (x >>= fun _ ↦ pure false) w1 fun ok w' ↦
        At t w w' ∧ (ok = true → Blank t w') := by
    intro w1 x h1 hx
    simp only [ensures_bind, ensures_pure]
    apply hx.mono
    intro _ w2 h2
    exact ⟨h1.trans h2, by simp⟩
  unfold procPagetable
  apply (uvmcreate_spec w t).bind
  rintro ok w1 ⟨h1, hblank⟩
  rw [ensures_ite, ensures_pure]
  refine ⟨fun hok ↦ ?_, fun hok ↦ ⟨h1, by simp⟩⟩
  have hb1 : Blank t w1 := ⟨(hblank hok).1, fun n _ ↦ (hblank hok).2 n⟩
  apply (mappages_blank (not_userPage (by decide)) hb1).bind
  rintro ok w2 ⟨h2, hb2⟩
  rw [ensures_ite]
  refine ⟨fun _ ↦ ?_, fun _ ↦ hfail w2 _ (h1.trans h2) (uvmfree_at w2 t 0)⟩
  apply (mappages_blank (not_userPage (by decide)) hb2).bind
  rintro ok w3 ⟨h3, hb3⟩
  have h13 := (h1.trans h2).trans h3
  rw [ensures_ite]
  refine ⟨fun _ ↦ ?_, fun _ ↦ ?_⟩
  · apply (mappages_blank (not_userPage (by decide)) hb3).bind
    rintro ok w4 ⟨h4, hb4⟩
    rw [ensures_ite, ensures_pure]
    refine ⟨fun _ ↦ ⟨h13.trans h4, fun _ ↦ hb4⟩, fun _ ↦ ?_⟩
    apply (uvmunmap_at w4 t _ false).bind
    intro _ w5 h5
    apply (uvmunmap_at w5 t _ false).bind
    intro _ w6 h6
    exact hfail w6 _ (((h13.trans h4).trans h5).trans h6) (uvmfree_at w6 t 0)
  · apply (uvmunmap_at w3 t _ false).bind
    intro _ w4 h4
    exact hfail w4 _ (h13.trans h4) (uvmfree_at w4 t 0)

/-- `ukvminit` makes a table without entries for user memory. -/
theorem ukvminit_spec (b : Boot P) (w : World P O F) (t : Tbl P) :
    Ensures (ukvminit b t) w fun ok w' ↦ At t w w' ∧ (ok = true → Blank t w') := by
  unfold ukvminit
  apply (uvmcreate_spec w t).bind
  rintro ok w1 ⟨h1, hblank⟩
  rw [ensures_ite, ensures_pure]
  refine ⟨fun hok ↦ ?_, fun hok ↦ ⟨h1, by simp⟩⟩
  have hb1 : Blank t w1 := ⟨(hblank hok).1, fun n _ ↦ (hblank hok).2 n⟩
  refine (ensures_stopAt
    (fun (ms : List (Nat × Pte)) w' ↦ ms ⊆ b.kmaps ∧ At t w w' ∧ Blank t w')
    (fun _ _ w' ↦ At t w w') ?_ ⟨fun _ h ↦ h, h1, hb1⟩).bind ?_
  · rintro m ms w2 ⟨hsub, h2, hb2⟩
    have hm := (b.above m (hsub List.mem_cons_self)).1
    refine (mappages_blank (Nat.not_lt.mpr hm) hb2).mono ?_
    rintro ok w3 ⟨h3, hb3⟩
    cases ok with
    | true => exact ⟨fun x hx ↦ hsub (List.mem_cons_of_mem m hx), h2.trans h3, hb3⟩
    | false => exact h2.trans h3
  · intro r w2 h2
    cases r with
    | none =>
      rw [ensures_pure]
      exact ⟨h2.2.1, fun _ ↦ h2.2.2⟩
    | some m =>
      obtain ⟨_, _, h2⟩ := h2
      simp only [ensures_bind, ensures_pure]
      apply (ukvmfree_at w2 t).mono
      intro _ w3 h3
      exact ⟨h2.trans h3, by simp⟩

/-! ### Process slots -/

/-- Only the process `c` and its two tables changed. -/
structure Only (c : P) (w w' : World P O F) : Prop where
  proc : ∀ q, q ≠ c → w'.proc q = w.proc q
  leaf : ∀ t, t ≠ .user c → t ≠ .kern c → w'.leaf t = w.leaf t
  there : ∀ t, t ≠ .user c → t ≠ .kern c → w'.there t = w.there t

omit [DecidableEq P] in
/-- Nothing changes. -/
theorem Only.refl (c : P) (w : World P O F) : Only c w w :=
  ⟨fun _ _ ↦ rfl, fun _ _ _ ↦ rfl, fun _ _ _ ↦ rfl⟩

omit [DecidableEq P] in
/-- Steps on one process compose. -/
theorem Only.trans {c : P} {w w' w'' : World P O F} (h : Only c w w') (h' : Only c w' w'') :
    Only c w w'' := by
  constructor
  · intro q hq
    rw [h'.proc q hq, h.proc q hq]
  · intro t hu hk
    rw [h'.leaf t hu hk, h.leaf t hu hk]
  · intro t hu hk
    rw [h'.there t hu hk, h.there t hu hk]

omit [DecidableEq P] in
/-- An own step. -/
theorem Own.only {c : P} {w w' : World P O F} (h : Own c w w') : Only c w w' :=
  ⟨h.proc, h.leaf, fun t _ _ ↦ h.there t⟩

omit [DecidableEq P] in
/-- A step on a table of the process. -/
theorem At.only {c : P} {t : Tbl P} {w w' : World P O F} (h : At t w w')
    (ht : t = .user c ∨ t = .kern c) : Only c w w' := by
  refine ⟨fun q _ ↦ by rw [h.proc], fun t' hu hk ↦ h.leaf t' ?_, fun t' hu hk ↦ h.there t' ?_⟩
  · rcases ht with rfl | rfl
    · exact hu
    · exact hk
  · rcases ht with rfl | rfl
    · exact hu
    · exact hk

omit [DecidableEq P] in
/-- A quiet step. -/
theorem Quiet.only (c : P) {w w' : World P O F} (h : Quiet w w') : Only c w w' :=
  (h.at (.user c)).only (.inl rfl)

/-- A write to the record. -/
theorem setProc_only (w : World P O F) (c : P) (f : Proc P O F → Proc P O F) :
    Ensures (setProc c f) w fun _ w' ↦ Only c w w' := by
  unfold setProc
  rw [ensures_modify]
  refine ⟨?_, fun _ _ _ ↦ rfl, fun _ _ _ ↦ rfl⟩
  intro q hq
  dsimp only
  rw [update_of_ne hq]

omit [DecidableEq P] in
/-- Routines that change process `c` only, in sequence. -/
theorem ensures_only_bind {α β : Type} {c : P} {x : Kern P O F α} {f : α → Kern P O F β}
    {w : World P O F} (hx : Ensures x w fun _ w' ↦ Only c w w')
    (hf : ∀ a w', Ensures (f a) w' fun _ w'' ↦ Only c w' w'') :
    Ensures (x >>= f) w fun _ w' ↦ Only c w w' := by
  apply hx.bind
  intro a w' h
  apply (hf a w').mono
  intro _ w'' h'
  exact h.trans h'

/-- `freeprocvm` changes its process only. -/
theorem freeprocvm_only (b : Boot P) (w : World P O F) (c : P) :
    Ensures (freeprocvm b c) w fun _ w' ↦ Only c w w' := by
  unfold freeprocvm
  rw [ensures_bind, ensures_get]
  apply ensures_only_bind ((kfreePages_quiet w _).mono fun _ _ h ↦ h.only c)
  intro _ w1
  have huser : Ensures (doIf (w.pt (.user c)).root.isSome
      (procFreepagetable (.user c) (w.proc c).sz)) w1 fun _ w' ↦ Only c w1 w' := by
    rw [ensures_doIf]
    refine ⟨fun _ ↦ ?_, fun _ ↦ .refl c w1⟩
    exact (procFreepagetable_at w1 _ _).mono fun _ _ h ↦ h.only (.inl rfl)
  apply ensures_only_bind huser
  intro _ w2
  have hkern : Ensures (doIf (w.pt (.kern c)).root.isSome
      (procFreekpagetable b (.kern c) (w.proc c).kstack (w.proc c).sz)) w2
      fun _ w' ↦ Only c w2 w' := by
    rw [ensures_doIf]
    refine ⟨fun _ ↦ ?_, fun _ ↦ .refl c w2⟩
    exact (procFreekpagetable_at b w2 _ _ _).mono fun _ _ h ↦ h.only (.inr rfl)
  apply ensures_only_bind hkern
  intro _ w3
  exact setProc_only w3 c _

/-- `freeprocvm` is not concerned with the state of the slot. -/
theorem freeprocvm_state (b : Boot P) (w : World P O F) (c : P) :
    Ensures (freeprocvm b c) w fun _ w' ↦ (w'.proc c).state = (w.proc c).state := by
  unfold freeprocvm
  rw [ensures_bind, ensures_get, ensures_bind]
  apply (kfreePages_quiet w _).mono
  intro _ w1 h1
  have huser : Ensures (doIf (w.pt (.user c)).root.isSome
      (procFreepagetable (.user c) (w.proc c).sz)) w1 fun _ w' ↦ w'.proc = w.proc := by
    rw [ensures_doIf]
    refine ⟨fun _ ↦ ?_, fun _ ↦ h1.core.proc⟩
    exact (procFreepagetable_at w1 _ _).mono fun _ _ h ↦ by rw [h.proc, h1.core.proc]
  apply huser.bind
  intro _ w2 h2
  have hkern : Ensures (doIf (w.pt (.kern c)).root.isSome
      (procFreekpagetable b (.kern c) (w.proc c).kstack (w.proc c).sz)) w2
      fun _ w' ↦ w'.proc = w.proc := by
    rw [ensures_doIf]
    refine ⟨fun _ ↦ ?_, fun _ ↦ h2⟩
    exact (procFreekpagetable_at b w2 _ _ _).mono fun _ _ h ↦ by rw [h.proc, h2]
  apply hkern.bind
  intro _ w3 h3
  unfold setProc
  rw [ensures_modify]
  dsimp only
  rw [update_self, h3]

omit [DecidableEq P] in
/-- A lock mark changes nothing of another. -/
theorem setHeld_only (w : World P O F) (c : P) (b : Bool) :
    Ensures (setHeld b) w fun _ w' ↦ Only c w w' := by
  unfold setHeld
  rw [ensures_modify]
  exact ⟨fun _ _ ↦ rfl, fun _ _ _ ↦ rfl, fun _ _ _ ↦ rfl⟩

variable [DecidableEq O] [DecidableEq F]

private theorem destroySlot_own (w : World P O F) (p : P) (i : Fin nvma) :
    Ensures (destroySlot p i) w fun _ w' ↦ Own p w w' := by
  unfold destroySlot
  rw [ensures_bind, ensures_get]
  split
  · rw [ensures_pure]
    exact .refl p w
  · rename_i v _
    have hwb : Ensures (doIf (w.pt (.user p)).root.isSome do
        let _ ← mmapFileWritebackRange p v v.start v.fin) w fun _ w' ↦ Own p w w' := by
      simp only [ensures_doIf, ensures_bind, ensures_pure]
      refine ⟨fun _ ↦ ?_, fun _ ↦ .refl p w⟩
      exact (mmapFileWritebackRange_quiet w p v _ _).mono fun _ _ h ↦ h.tab.own fun _ _ _ ↦ rfl
    apply hwb.bind
    intro _ w1 h1
    have hun : Ensures (doIf ((w.pt (.user p)).root.isSome ∧ (w.pt (.kern p)).root.isSome)
        (vmaUnmapPages p v.start v.fin)) w1 fun _ w' ↦ Own p w1 w' := by
      rw [ensures_doIf]
      refine ⟨fun _ ↦ ?_, fun _ ↦ .refl p w1⟩
      apply (vmaUnmapPages_spec w1 p _ _).mono
      intro _ w2 h2
      exact h2.tab.own fun t hu hk ↦ Leaves.unmap_ne _ _ _ hu hk
    apply hun.bind
    intro _ w2 h2
    apply (putIfAny_tab w2 v.object).bind
    intro _ w3 h3
    apply (setVma_proc w3 p i none).mono
    intro _ w4 h4
    exact ((h1.trans h2).trans (h3.own fun _ _ _ ↦ rfl)).trans h4.own

/-- The end of all mappings is an own step. -/
theorem vmaDestroyAll_own (w : World P O F) (p : P) :
    Ensures (vmaDestroyAll p) w fun _ w' ↦ Own p w w' := by
  apply ensures_forEach (fun _ w' ↦ Own p w w') _ (Own.refl p w)
  intro i is w1 h1
  apply (destroySlot_own w1 p i).mono
  intro _ w2 h2
  exact h1.trans h2

/-- `freeproc` changes its process only. -/
theorem freeproc_only (b : Boot P) (w : World P O F) (c : P) :
    Ensures (freeproc b c) w fun _ w' ↦ Only c w w' := by
  unfold freeproc
  apply ensures_only_bind ((vmaDestroyAll_own w c).mono fun _ _ h ↦ h.only)
  intro _ w1
  apply ensures_only_bind (freeprocvm_only b w1 c)
  intro _ w2
  exact setProc_only w2 c _

/-- `freeproc` leaves the slot unused. -/
theorem freeproc_unused (b : Boot P) (w : World P O F) (c : P) :
    Ensures (freeproc b c) w fun _ w' ↦ (w'.proc c).state = .unused := by
  unfold freeproc
  apply (vmaDestroyAll_own w c).bind
  intro _ w1 _
  apply (freeprocvm_only b w1 c).bind
  intro _ w2 _
  unfold setProc
  rw [ensures_modify]
  dsimp only
  rw [update_self]

/-- A process slot with two tables, no entry for user memory and no mapping. -/
structure Newborn (c : P) (w : World P O F) : Prop where
  user : Blank (.user c) w
  kern : Blank (.kern c) w
  vmas : ∀ i, (w.proc c).vmas i = none

omit [DecidableEq P] [DecidableEq O] [DecidableEq F] in
/-- A blank table stays blank. -/
theorem Blank.at {t t' : Tbl P} {w w' : World P O F} (h : Blank t w) (h' : At t' w w')
    (hne : t ≠ t') : Blank t w' := by
  refine ⟨by rw [h'.there t hne, h.there], ?_⟩
  intro n hn
  rw [h'.leaf t hne]
  exact h.leaf n hn

/-- `allocproc` fills the slot, or leaves it unused; the other processes are the same. -/
theorem allocproc_spec (b : Boot P) (w : World P O F) (c : P) (hc : (w.proc c).state = .unused) :
    Ensures (allocproc b c) w fun ok w' ↦
      Only c w w' ∧ (ok = true → Newborn c w') ∧ (ok = false → (w'.proc c).state = .unused) := by
  have hfail : ∀ w1 : World P O F, Only c w w1 →
      Ensures (freeproc b c >>= fun _ ↦ pure false) w1 fun ok w' ↦
        Only c w w' ∧ (ok = true → Newborn c w') ∧
          (ok = false → (w'.proc c).state = .unused) := by
    intro w1 h1
    simp only [ensures_bind, ensures_pure]
    apply ((freeproc_only b w1 c).and (freeproc_unused b w1 c)).mono
    rintro _ w2 ⟨h2, hunused⟩
    exact ⟨h1.trans h2, by simp, fun _ ↦ hunused⟩
  unfold allocproc
  apply (kallocPage_quiet w).bind
  intro r w1 h1
  cases r with
  | none =>
    rw [ensures_pure]
    refine ⟨h1.only c, by simp, fun _ ↦ ?_⟩
    rw [h1.core.proc, hc]
  | some tf =>
    apply (setProc_only w1 c _).bind
    intro _ w2 h2
    have h12 := (h1.only c).trans h2
    apply (procPagetable_spec b w2 (.user c) tf).bind
    rintro ok w3 ⟨h3, hb3⟩
    have h13 := h12.trans (h3.only (.inl rfl))
    rw [ensures_ite]
    refine ⟨fun hok ↦ ?_, fun _ ↦ hfail w3 h13⟩
    have huser := hb3 hok
    apply (ukvminit_spec b w3 (.kern c)).bind
    rintro ok w4 ⟨h4, hb4⟩
    have h14 := h13.trans (h4.only (.inr rfl))
    rw [ensures_ite]
    refine ⟨fun hok ↦ ?_, fun _ ↦ hfail w4 h14⟩
    have hkern := hb4 hok
    replace huser := huser.at h4 (by simp)
    apply (kallocPage_quiet w4).bind
    intro r w5 h5
    have h15 := h14.trans (h5.only c)
    have hsame : ∀ t, Blank t w4 → Blank t w5 := by
      intro t ht
      refine ⟨by rw [h5.core.there, ht.there], ?_⟩
      intro n hn
      rw [h5.leaf]
      exact ht.leaf n hn
    cases r with
    | none => exact hfail w5 h15
    | some pa =>
      refine (mappages_blank (not_userPage (by decide)) (hsame _ hkern)).bind ?_
      rintro ok w6 ⟨h6, hb6⟩
      have h16 := h15.trans (h6.only (.inr rfl))
      rw [ensures_ite]
      refine ⟨fun hok ↦ ?_, fun _ ↦ ?_⟩
      · simp only [ensures_bind, ensures_pure]
        have huser6 := (hsame _ huser).at h6 (by simp)
        unfold setProc
        rw [ensures_modify]
        refine ⟨h16.trans ⟨?_, fun _ _ _ ↦ rfl, fun _ _ _ ↦ rfl⟩, fun _ ↦ ?_, by simp⟩
        · intro q hq
          dsimp only
          rw [update_of_ne hq]
        · refine ⟨⟨huser6.there, huser6.leaf⟩, ⟨hb6.there, hb6.leaf⟩, ?_⟩
          simp
      · apply (kfreePage_quiet w6 pa).bind
        intro _ w7 h7
        apply (ukvmfree_at w7 (.kern c)).bind
        intro _ w8 h8
        exact hfail w8 ((h16.trans (h7.only c)).trans (h8.only (.inr rfl)))

end Xv6K210.Vm
