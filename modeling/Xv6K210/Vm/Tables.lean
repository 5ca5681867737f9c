import Xv6K210.Vm.Process

/-!
# What the page-table routines do

The entries that the tables hold are a function of the table and the page number.
The routines on physical pages leave it alone, `mappages` adds an entry, `uvmunmap` removes
those of its pages and `upg2ukpg` copies those of its pages. None of them touches the mappings,
the objects or the files.
-/

namespace Xv6K210.Vm

open Xv6K210.Base Prog Function

variable {P O F : Type}

/-- The entries of all tables. -/
abbrev Leaves (P : Type) := Tbl P → Nat → Option Pte

/-- The entry that a table holds for a page. -/
def World.leaf (w : World P O F) : Leaves P := fun t n ↦ (w.pt t).leaf[n]?

/-- The pointer to the table is not null. -/
def World.there (w : World P O F) (t : Tbl P) : Bool := (w.pt t).root.isSome

/-- What an object is, apart from the pages it owns. -/
def MmapObject.head (x : MmapObject F) : Nat × VmaType × Option F := (x.refcnt, x.type, x.file)

/-- The processes, the objects up to their pages, and the files are the same. -/
structure Core (w w' : World P O F) : Prop where
  proc : w'.proc = w.proc
  there : ∀ t, w'.there t = w.there t
  obj : ∀ o, (w'.obj o).map MmapObject.head = (w.obj o).map MmapObject.head
  file : w'.file = w.file
  held : w'.held = w.held

/-- Nothing changes. -/
theorem Core.refl (w : World P O F) : Core w w := by
  constructor
  · rfl
  · intro t
    rfl
  · intro o
    rfl
  · rfl
  · rfl

/-- Steps that keep the records compose. -/
theorem Core.trans {w w' w'' : World P O F} (h : Core w w') (h' : Core w' w'') : Core w w'' := by
  constructor
  · rw [h'.proc, h.proc]
  · intro t
    rw [h'.there, h.there]
  · intro o
    rw [h'.obj, h.obj]
  · rw [h'.file, h.file]
  · rw [h'.held, h.held]

/-- Only contents, quotas and answers changed. -/
structure Quiet (w w' : World P O F) : Prop where
  core : Core w w'
  pt : w'.pt = w.pt
  obj : w'.obj = w.obj

/-- Nothing changes. -/
theorem Quiet.refl (w : World P O F) : Quiet w w := ⟨.refl w, rfl, rfl⟩

/-- Quiet steps compose. -/
theorem Quiet.trans {w w' w'' : World P O F} (h : Quiet w w') (h' : Quiet w' w'') :
    Quiet w w'' :=
  ⟨h.core.trans h'.core, by rw [h'.pt, h.pt], by rw [h'.obj, h.obj]⟩

/-- A quiet step keeps the entries. -/
theorem Quiet.leaf {w w' : World P O F} (h : Quiet w w') : w'.leaf = w.leaf := by
  unfold World.leaf
  rw [h.pt]

/-- A state that differs in contents, quotas, answers, transfers and `slept` only. -/
theorem Quiet.of_eq {w w' : World P O F} (hproc : w'.proc = w.proc) (hpt : w'.pt = w.pt)
    (hobj : w'.obj = w.obj) (hfile : w'.file = w.file) (hheld : w'.held = w.held) :
    Quiet w w' := by
  refine ⟨⟨hproc, ?_, ?_, hfile, hheld⟩, hpt, hobj⟩
  · intro t
    unfold World.there
    rw [hpt]
  · intro o
    rw [hobj]

/-! ### Physical pages -/

/-- `kalloc` changes no entry. -/
theorem kallocPage_quiet (w : World P O F) : Ensures kallocPage w fun _ w' ↦ Quiet w w' := by
  unfold kallocPage
  rw [ensures_bind, ensures_get]
  split
  · rw [ensures_ite]
    constructor
    · intro _
      simp only [ensures_bind, ensures_set, ensures_pure]
      exact .of_eq rfl rfl rfl rfl rfl
    · intro _
      simp only [ensures_bind, ensures_set, ensures_pure]
      exact .of_eq rfl rfl rfl rfl rfl
  · simp only [ensures_bind, ensures_set, ensures_pure]
    exact .of_eq rfl rfl rfl rfl rfl
  · rw [ensures_pure]
    exact .refl w

/-- `kfree` changes no entry. -/
theorem kfreePage_quiet (w : World P O F) (pa : Nat) :
    Ensures (kfreePage pa) w fun _ w' ↦ Quiet w w' := by
  unfold kfreePage
  simp only [ensures_bind, ensures_get, ensures_ite, ensures_set]
  constructor
  · intro _
    exact .of_eq rfl rfl rfl rfl rfl
  · intro _
    exact .of_eq rfl rfl rfl rfl rfl

/-- `kaddquota` changes no entry. -/
theorem kaddquota_quiet (w : World P O F) (pa : Nat) :
    Ensures (kaddquota pa) w fun _ w' ↦ Quiet w w' := by
  unfold kaddquota
  rw [ensures_modify]
  exact .of_eq rfl rfl rfl rfl rfl

/-- Zeroing a page changes no entry. -/
theorem zeroPage_quiet (w : World P O F) (pa : Nat) :
    Ensures (zeroPage pa) w fun _ w' ↦ Quiet w w' := by
  unfold zeroPage
  rw [ensures_modify]
  exact .of_eq rfl rfl rfl rfl rfl

/-- Copying a page changes no entry. -/
theorem copyPage_quiet (w : World P O F) (dst src : Nat) :
    Ensures (copyPage dst src) w fun _ w' ↦ Quiet w w' := by
  unfold copyPage
  rw [ensures_modify]
  exact .of_eq rfl rfl rfl rfl rfl

/-- `kmalloc` changes no entry. -/
theorem kmalloc_quiet (w : World P O F) : Ensures kmalloc w fun _ w' ↦ Quiet w w' := by
  unfold kmalloc
  rw [ensures_bind, ensures_get]
  split
  · simp only [ensures_bind, ensures_set, ensures_pure]
    exact .of_eq rfl rfl rfl rfl rfl
  · rw [ensures_pure]
    exact .refl w

/-- A sequence of quiet routines is quiet. -/
theorem ensures_quiet_bind {α β : Type} {x : Kern P O F α} {f : α → Kern P O F β}
    {w : World P O F} (hx : Ensures x w fun _ w' ↦ Quiet w w')
    (hf : ∀ a w', Ensures (f a) w' fun _ w'' ↦ Quiet w' w'') :
    Ensures (x >>= f) w fun _ w' ↦ Quiet w w' := by
  apply hx.bind
  intro a w' h
  apply (hf a w').mono
  intro _ w'' h'
  exact h.trans h'

/-- Freeing pages changes no entry. -/
theorem kfreePages_quiet (w : World P O F) (pas : List Nat) :
    Ensures (forEach kfreePage pas) w fun _ w' ↦ Quiet w w' := by
  apply ensures_forEach (fun _ w' ↦ Quiet w w') _ (Quiet.refl w)
  intro pa pas w' h
  apply (kfreePage_quiet w' pa).mono
  intro _ w'' h'
  exact h.trans h'

/-! ### Page tables -/

/-- The entries are now `L`, and everything outside the tables is the same. -/
structure Eff (w w' : World P O F) (L : Leaves P) : Prop where
  core : Core w w'
  leaf : w'.leaf = L

/-- No effect. -/
theorem Eff.refl (w : World P O F) : Eff w w w.leaf := ⟨.refl w, rfl⟩

/-- Effects compose. -/
theorem Eff.trans {w w' w'' : World P O F} {L L' : Leaves P} (h : Eff w w' L)
    (h' : Eff w' w'' L') : Eff w w'' L' :=
  ⟨h.core.trans h'.core, h'.leaf⟩

/-- A quiet step has no effect. -/
theorem Quiet.eff {w w' : World P O F} (h : Quiet w w') : Eff w w' w.leaf := ⟨h.core, h.leaf⟩

/-- `walk` reads the entry. -/
theorem walk_spec (w : World P O F) (t : Tbl P) (n : Nat) :
    Ensures (walk t n) w fun r w' ↦ w' = w ∧ r = w.leaf t n := by
  unfold walk
  simp only [ensures_bind, ensures_get, ensures_ite, ensures_halt, ensures_pure]
  exact ⟨fun _ ↦ trivial, fun _ ↦ ⟨trivial, rfl⟩⟩

/-! ### Backing pages -/

/-- `elock` changes no entry. -/
theorem elock_quiet (w : World P O F) : Ensures elock w fun _ w' ↦ Quiet w w' := by
  unfold elock
  rw [ensures_modify]
  exact .of_eq rfl rfl rfl rfl rfl

/-- A file read changes no entry. -/
theorem filereadAt_quiet (w : World P O F) (f : F) (pa offset n : Nat) :
    Ensures (filereadAt f pa offset n) w fun _ w' ↦ Quiet w w' := by
  unfold filereadAt
  simp only [ensures_bind, ensures_get, ensures_ite, ensures_pure]
  refine ⟨fun _ ↦ .refl w, fun _ ↦ ?_⟩
  apply (elock_quiet w).mono
  intro _ w1 h1
  rw [ensures_modify]
  exact h1.trans (.of_eq rfl rfl rfl rfl rfl)

private theorem filewriteAt_quiet (w : World P O F) (f : F) (pa offset n : Nat) :
    Ensures (filewriteAt f pa offset n) w fun _ w' ↦ Quiet w w' := by
  unfold filewriteAt
  simp only [ensures_bind, ensures_get, ensures_ite, ensures_pure]
  refine ⟨fun _ ↦ .refl w, fun _ ↦ ?_⟩
  apply (elock_quiet w).mono
  intro _ w1 h1
  refine ⟨fun _ ↦ h1, fun _ ↦ ?_⟩
  unfold ewriteAt
  simp only [ensures_bind, ensures_get, ensures_set, ensures_pure]
  exact h1.trans (.of_eq rfl rfl rfl rfl rfl)

private theorem mmapFileFault_quiet (w : World P O F) (v : Vma O) (n : Nat) :
    Ensures (mmapFileFault v n) w fun _ w' ↦ Quiet w w' := by
  unfold mmapFileFault
  apply ensures_quiet_bind (kallocPage_quiet w)
  intro r w1
  cases r with
  | none =>
    rw [ensures_pure]
    exact .refl w1
  | some pa =>
    apply ensures_quiet_bind (zeroPage_quiet w1 pa)
    intro _ w2
    simp only [ensures_ite, ensures_bind, ensures_pure, ensures_get]
    refine ⟨fun _ ↦ kfreePage_quiet w2 pa, fun _ ↦ ⟨fun _ ↦ .refl w2, fun _ ↦ ?_⟩⟩
    split
    · exact ensures_halt
    · apply ensures_quiet_bind (filereadAt_quiet w2 _ pa _ _)
      intro b w3
      simp only [ensures_ite, ensures_bind, ensures_pure]
      exact ⟨fun _ ↦ .refl w3, fun _ ↦ kfreePage_quiet w3 pa⟩

private theorem anonLookup_quiet (w : World P O F) (o : O) (index : Nat) :
    Ensures (anonLookup o index) w fun _ w' ↦ Quiet w w' := by
  unfold anonLookup
  rw [ensures_bind, ensures_get]
  split
  · rw [ensures_pure]
    exact .refl w
  · simp only [ensures_bind, ensures_pure]
    exact kaddquota_quiet w _

/-- An anonymous page before it is shared. -/
theorem anonCandidate_quiet (w : World P O F) :
    Ensures anonCandidate w fun _ w' ↦ Quiet w w' := by
  unfold anonCandidate
  apply ensures_quiet_bind (kallocPage_quiet w)
  intro r w1
  cases r with
  | none =>
    rw [ensures_pure]
    exact .refl w1
  | some pa =>
    apply ensures_quiet_bind (zeroPage_quiet w1 pa)
    intro _ w2
    apply ensures_quiet_bind (kmalloc_quiet w2)
    intro b w3
    simp only [ensures_ite, ensures_bind, ensures_pure]
    exact ⟨fun _ ↦ .refl w3, fun _ ↦ kfreePage_quiet w3 pa⟩

private theorem mmapFileWritebackPage_quiet (w : World P O F) (p : P) (v : Vma O) (n : Nat) :
    Ensures (mmapFileWritebackPage p v n) w fun _ w' ↦ Quiet w w' := by
  unfold mmapFileWritebackPage
  simp only [ensures_ite, ensures_pure, ensures_bind]
  refine ⟨fun _ ↦ .refl w, fun _ ↦ ?_⟩
  apply (walk_spec w (.user p) n).mono
  rintro r w1 ⟨rfl, rfl⟩
  split
  · rw [ensures_pure]
    exact .refl w1
  · simp only [ensures_ite, ensures_pure, ensures_bind, ensures_get]
    refine ⟨fun _ ↦ .refl w1, fun _ ↦ ⟨fun _ ↦ .refl w1, fun _ ↦ ?_⟩⟩
    split
    · exact ensures_halt
    · exact filewriteAt_quiet w1 _ _ _ _

/-- Writing back changes no entry. -/
theorem mmapFileWritebackRange_quiet (w : World P O F) (p : P) (v : Vma O) (start fin : Nat) :
    Ensures (mmapFileWritebackRange p v start fin) w fun _ w' ↦ Quiet w w' := by
  unfold mmapFileWritebackRange
  simp only [ensures_ite, ensures_pure, ensures_bind]
  refine ⟨fun _ ↦ .refl w, fun _ ↦ ?_⟩
  refine (ensures_stopAt (fun _ w' ↦ Quiet w w') (fun _ _ w' ↦ Quiet w w') ?_
    (Quiet.refl w)).mono ?_
  · intro n ns w1 h1
    apply (mmapFileWritebackPage_quiet w1 p v n).mono
    intro b w2 h2
    cases b with
    | true => exact h1.trans h2
    | false => exact h1.trans h2
  · intro r w' h
    cases r with
    | none => exact h
    | some n =>
      obtain ⟨_, _, h⟩ := h
      exact h

section

variable [DecidableEq O]

/-- An object is replaced by one that differs in its pages. -/
theorem setObj_eff (w : World P O F) {o : O} {x x' : MmapObject F} (hx : w.obj o = some x)
    (hhead : x'.head = x.head) :
    Ensures (setObj o (some x')) w fun _ w' ↦ Eff w w' w.leaf := by
  unfold setObj
  rw [ensures_modify]
  refine ⟨⟨rfl, fun _ ↦ rfl, ?_, rfl, rfl⟩, rfl⟩
  intro o'
  by_cases ho : o' = o
  · subst ho
    simp [hx, hhead]
  · simp [ho]

private theorem anonInsert_eff (w : World P O F) (o : O) (index pa : Nat) :
    Ensures (anonInsert o index pa) w fun _ w' ↦ Eff w w' w.leaf := by
  unfold anonInsert
  rw [ensures_bind, ensures_get]
  split
  · exact ensures_halt
  · rename_i x hx
    split
    · simp only [ensures_bind, ensures_pure]
      apply (kaddquota_quiet w _).mono
      intro _ w1 h1
      apply (kfreePage_quiet w1 pa).mono
      intro _ w2 h2
      exact (h1.trans h2).eff
    · simp only [ensures_bind, ensures_pure]
      refine (setObj_eff w hx ?_).mono ?_
      · rfl
      intro _ w1 h1
      apply (kaddquota_quiet w1 pa).mono
      intro _ w2 h2
      rw [← h1.leaf]
      exact h1.trans h2.eff

/-- An anonymous page of an object. -/
theorem anonPageGet_eff (w : World P O F) (o : O) (index : Nat) :
    Ensures (anonPageGet o index) w fun _ w' ↦ Eff w w' w.leaf := by
  unfold anonPageGet
  apply (anonLookup_quiet w o index).bind
  intro r w1 h1
  cases r with
  | some pa =>
    rw [ensures_pure]
    exact h1.eff
  | none =>
    apply (anonCandidate_quiet w1).bind
    intro r w2 h2
    have h12 := (h1.trans h2).eff
    cases r with
    | none =>
      rw [ensures_pure]
      exact h12
    | some pa =>
      simp only [ensures_bind, ensures_pure]
      apply (anonInsert_eff w2 o index pa).mono
      intro _ w3 h3
      rw [← h12.leaf]
      exact h12.trans h3

/-- A fault operation changes no entry. -/
theorem vmaFault_eff (w : World P O F) (v : Vma O) (n : Nat) :
    Ensures (vmaFault v n) w fun _ w' ↦ Eff w w' w.leaf := by
  unfold vmaFault
  split
  · exact (mmapFileFault_quiet w v n).mono fun _ _ h ↦ h.eff
  · unfold mmapAnonFault
    rw [ensures_ite]
    refine ⟨fun _ ↦ ?_, fun _ ↦ ?_⟩
    · split
      · exact ensures_halt
      · exact anonPageGet_eff w _ _
    · apply (kallocPage_quiet w).bind
      intro r w1 h1
      cases r with
      | none =>
        rw [ensures_pure]
        exact h1.eff
      | some pa =>
        simp only [ensures_bind, ensures_pure]
        apply (zeroPage_quiet w1 pa).mono
        intro _ w2 h2
        exact (h1.trans h2).eff
  · unfold mmapKbufFault
    rw [ensures_bind, ensures_get]
    split
    · rw [ensures_pure]
      exact .refl w
    · split
      · rw [ensures_pure]
        exact .refl w
      · simp only [ensures_bind, ensures_pure]
        exact (kaddquota_quiet w _).mono fun _ _ h ↦ h.eff

end

/-! ### Entries -/

variable [DecidableEq P]

/-- One entry is replaced. -/
def Leaves.put (L : Leaves P) (t : Tbl P) (n : Nat) (x : Option Pte) : Leaves P :=
  update L t (update (L t) n x)

/-- The entries of the pages in a list are removed. -/
def Leaves.drop (L : Leaves P) (t : Tbl P) (ns : List Nat) : Leaves P :=
  update L t fun n ↦ if n ∈ ns then none else L t n

/-- The entries of the pages in a list are copied, where there are any. -/
def Leaves.copy (L : Leaves P) (u k : Tbl P) (ns : List Nat) : Leaves P :=
  update L k fun n ↦ if n ∈ ns then ((L u n).map Pte.mirror).or (L k n) else L k n

/-- An entry put where it was. -/
theorem Leaves.put_self (L : Leaves P) (t : Tbl P) (n : Nat) : L.put t n (L t n) = L := by
  unfold Leaves.put
  rw [update_eq_self, update_eq_self]

/-- An entry put, table by table. -/
theorem Leaves.put_apply (L : Leaves P) (t t' : Tbl P) (n m : Nat) (x : Option Pte) :
    L.put t n x t' m = if t' = t ∧ m = n then x else L t' m := by
  unfold Leaves.put
  by_cases ht : t' = t
  · subst ht
    by_cases hm : m = n
    · simp [hm]
    · simp [hm]
  · simp [ht]

/-- Entries dropped, table by table. -/
theorem Leaves.drop_apply (L : Leaves P) (t t' : Tbl P) (ns : List Nat) (m : Nat) :
    L.drop t ns t' m = if t' = t ∧ m ∈ ns then none else L t' m := by
  unfold Leaves.drop
  by_cases ht : t' = t
  · subst ht
    simp
  · simp [ht]

private theorem Leaves.copy_apply (L : Leaves P) (u k t' : Tbl P) (ns : List Nat) (m : Nat) :
    L.copy u k ns t' m =
      if t' = k ∧ m ∈ ns then ((L u m).map Pte.mirror).or (L k m) else L t' m := by
  unfold Leaves.copy
  by_cases ht : t' = k
  · subst ht
    simp
  · simp [ht]

/-- No entry is dropped. -/
theorem Leaves.drop_nil (L : Leaves P) (t : Tbl P) : L.drop t [] = L := by
  ext t' m : 2
  simp [Leaves.drop_apply]

private theorem Leaves.copy_nil (L : Leaves P) (u k : Tbl P) : L.copy u k [] = L := by
  ext t' m : 2
  simp [Leaves.copy_apply]

private theorem Leaves.drop_cons (L : Leaves P) (t : Tbl P) (n : Nat) (ns : List Nat) :
    (L.put t n none).drop t ns = L.drop t (n :: ns) := by
  ext t' m : 2
  simp only [Leaves.drop_apply, Leaves.put_apply, List.mem_cons]
  split_ifs <;> simp_all

/-- Change of one table that keeps its pointer. -/
theorem setPt_spec (w : World P O F) (t : Tbl P) (f : PageTable → PageTable)
    (hroot : (f (w.pt t)).root.isSome = (w.pt t).root.isSome) :
    Ensures (setPt t f) w fun _ w' ↦
      Eff w w' (update w.leaf t fun n ↦ (f (w.pt t)).leaf[n]?) := by
  unfold setPt
  rw [ensures_modify]
  constructor
  · refine ⟨rfl, ?_, fun _ ↦ rfl, rfl, rfl⟩
    intro t'
    unfold World.there
    by_cases h : t' = t
    · subst h
      simpa using hroot
    · simp [h]
  · ext t' n : 2
    by_cases h : t' = t
    · subst h
      simp [World.leaf]
    · simp [h, World.leaf]

/-- One entry is written. -/
theorem setLeaf_spec (w : World P O F) (t : Tbl P) (n : Nat) (e : Pte) :
    Ensures (setLeaf t n e) w fun _ w' ↦ Eff w w' (w.leaf.put t n (some e)) := by
  unfold setLeaf
  apply (setPt_spec w t _ (by rfl)).mono
  intro _ w' h
  refine ⟨h.core, ?_⟩
  rw [h.leaf]
  unfold Leaves.put
  congr 1
  ext m : 1
  rw [update_apply, Std.ExtTreeMap.getElem?_insert]
  by_cases hm : m = n
  · simp [hm]
  · simp [hm, Ne.symm hm, World.leaf]

/-- One entry is cleared. -/
theorem clearLeaf_spec (w : World P O F) (t : Tbl P) (n : Nat) :
    Ensures (clearLeaf t n) w fun _ w' ↦ Eff w w' (w.leaf.put t n none) := by
  unfold clearLeaf
  apply (setPt_spec w t _ (by rfl)).mono
  intro _ w' h
  refine ⟨h.core, ?_⟩
  rw [h.leaf]
  unfold Leaves.put
  congr 1
  ext m : 1
  rw [update_apply, Std.ExtTreeMap.getElem?_erase]
  by_cases hm : m = n
  · simp [hm]
  · simp [hm, Ne.symm hm, World.leaf]

/-- A level of a walk changes no entry. -/
theorem walkLevel_spec {w : World P O F} {t : Tbl P} {there : PageTable → Bool}
    {put : Nat → PageTable → PageTable} (hroot : ∀ pa pt, (put pa pt).root = pt.root)
    (hleaf : ∀ pa pt, (put pa pt).leaf = pt.leaf) :
    Ensures (walkLevel t there put) w fun _ w' ↦ Eff w w' w.leaf := by
  unfold walkLevel
  simp only [ensures_bind, ensures_get, ensures_ite, ensures_pure]
  refine ⟨fun _ ↦ .refl w, fun _ ↦ ?_⟩
  apply (kallocPage_quiet w).mono
  intro r w1 h1
  cases r with
  | none => simpa using h1.eff
  | some pa =>
    simp only [ensures_bind]
    apply (zeroPage_quiet w1 pa).mono
    intro _ w2 h2
    apply (setPt_spec w2 t (put pa) (by rw [hroot])).mono
    intro _ w3 h3
    rw [ensures_pure]
    refine ⟨(h1.trans h2).core.trans h3.core, ?_⟩
    rw [h3.leaf, hleaf, ← (h1.trans h2).leaf]
    exact update_eq_self t w2.leaf

/-- A walk changes no entry. -/
theorem walkAlloc_spec (w : World P O F) (t : Tbl P) (n : Nat) :
    Ensures (walkAlloc t n) w fun _ w' ↦ Eff w w' w.leaf := by
  unfold walkAlloc
  rw [ensures_ite]
  refine ⟨fun _ ↦ ensures_halt, fun _ ↦ ?_⟩
  refine (walkLevel_spec (by intros; rfl) (by intros; rfl)).bind ?_
  intro b w1 h1
  rw [ensures_ite, ensures_pure]
  refine ⟨fun _ ↦ ?_, fun _ ↦ h1⟩
  refine (walkLevel_spec (by intros; rfl) (by intros; rfl)).mono ?_
  intro _ w2 h2
  rw [← h1.leaf]
  exact h1.trans h2

/-- `mappages` adds one entry where there was none, or changes no entry. -/
theorem mappages_spec (w : World P O F) (t : Tbl P) (n pa : Nat) (perm : Perm) :
    Ensures (mappages t n pa perm) w fun b w' ↦
      (b = true ∧ w.leaf t n = none ∧ Eff w w' (w.leaf.put t n (some ⟨pa, perm⟩))) ∨
        (b = false ∧ Eff w w' w.leaf) := by
  unfold mappages
  apply (walkAlloc_spec w t n).bind
  intro b w1 h1
  cases b with
  | false => simpa using h1
  | true =>
    simp only [if_true, ensures_bind, ensures_get, ensures_ite, ensures_pure]
    refine ⟨fun _ ↦ ensures_halt, fun hfree ↦ ?_⟩
    apply (setLeaf_spec w1 t n ⟨pa, perm⟩).mono
    intro _ w2 h2
    rw [h1.leaf] at h2
    refine .inl ⟨by trivial, ?_, h1.trans h2⟩
    rw [← h1.leaf]
    simpa [World.leaf] using hfree

/-- One page is unmapped. -/
theorem uvmunmapPage_spec (w : World P O F) (t : Tbl P) (doFree : Bool) (n : Nat) :
    Ensures (uvmunmapPage t doFree n) w fun _ w' ↦ Eff w w' (w.leaf.put t n none) := by
  unfold uvmunmapPage
  apply (walk_spec w t n).bind
  rintro r w1 ⟨rfl, rfl⟩
  cases h : w1.leaf t n with
  | none =>
    rw [ensures_pure, ← h, Leaves.put_self]
    exact .refl w1
  | some e =>
    simp only [ensures_ite, ensures_bind, ensures_doIf]
    refine ⟨fun _ ↦ ensures_halt, fun _ ↦ ⟨fun _ ↦ ?_, fun _ ↦ ?_⟩⟩
    · apply (kfreePage_quiet w1 e.pa).mono
      intro _ w2 h2
      apply (clearLeaf_spec w2 t n).mono
      intro _ w3 h3
      rw [h2.leaf] at h3
      exact h2.eff.trans h3
    · exact clearLeaf_spec w1 t n

/-- `uvmunmap` removes the entries of its pages. -/
theorem uvmunmap_spec (w : World P O F) (t : Tbl P) (ns : List Nat) (doFree : Bool) :
    Ensures (uvmunmap t ns doFree) w fun _ w' ↦ Eff w w' (w.leaf.drop t ns) := by
  unfold uvmunmap
  induction ns generalizing w with
  | nil =>
    rw [forEach, ensures_pure, Leaves.drop_nil]
    exact .refl w
  | cons n ns ih =>
    rw [forEach, ensures_bind]
    apply (uvmunmapPage_spec w t doFree n).mono
    intro _ w1 h1
    apply (ih w1).mono
    intro _ w2 h2
    rw [h1.leaf, Leaves.drop_cons] at h2
    exact h1.trans h2

/-- One entry is copied. -/
theorem upg2ukpgPage_spec (w : World P O F) (u k : Tbl P) (n : Nat) :
    Ensures (upg2ukpgPage u k n) w fun b w' ↦
      Eff w w' (if b then w.leaf.copy u k [n] else w.leaf) := by
  unfold upg2ukpgPage
  apply (walk_spec w u n).bind
  rintro r w1 ⟨rfl, rfl⟩
  cases h : w1.leaf u n with
  | none =>
    have hcopy : w1.leaf.copy u k [n] = w1.leaf := by
      ext t' m : 2
      rw [Leaves.copy_apply]
      split_ifs with hc
      · obtain ⟨rfl, hm⟩ := hc
        rw [List.mem_singleton] at hm
        subst hm
        rw [h]
        rfl
      · rfl
    rw [ensures_pure, if_pos rfl, hcopy]
    exact .refl w1
  | some e =>
    apply (walkAlloc_spec w1 k n).bind
    intro b w2 h2
    cases b with
    | false => simpa using h2
    | true =>
      simp only [if_true, ensures_bind, ensures_pure]
      apply (setLeaf_spec w2 k n e.mirror).mono
      intro _ w3 h3
      rw [h2.leaf] at h3
      have hcopy : w1.leaf.copy u k [n] = w1.leaf.put k n (some e.mirror) := by
        ext t' m : 2
        simp only [Leaves.copy_apply, Leaves.put_apply, List.mem_singleton]
        split_ifs with hc
        · rw [hc.2, h]
          rfl
        · rfl
      rw [hcopy]
      exact h2.trans h3

/-- Copying the entries of some pages and then of others, into another table. -/
theorem Leaves.copy_copy (L : Leaves P) {u k : Tbl P} (huk : u ≠ k) (ns ms : List Nat) :
    (L.copy u k ns).copy u k ms = L.copy u k (ns ++ ms) := by
  ext t' m : 2
  simp only [Leaves.copy_apply, List.mem_append, huk, false_and, if_false]
  by_cases ht : t' = k
  · subst ht
    by_cases hns : m ∈ ns
    · by_cases hms : m ∈ ms
      · cases L u m <;> simp [hns, hms]
      · simp [hns, hms]
    · simp [hns]
  · simp [ht]

/-- `upg2ukpg` copies the entries of its pages, or of some of them if it fails. -/
theorem upg2ukpg_spec (w : World P O F) {u k : Tbl P} (huk : u ≠ k) (ns : List Nat) :
    Ensures (upg2ukpg u k ns) w fun b w' ↦
      ∃ ms, Eff w w' (w.leaf.copy u k ms) ∧ ms ⊆ ns ∧ (b = true → ms = ns) := by
  unfold upg2ukpg
  simp only [ensures_bind, ensures_pure]
  suffices h : ∀ (w1 : World P O F) (done ms : List Nat), ns = done ++ ms →
      Eff w w1 (w.leaf.copy u k done) →
      Ensures (stopAt (upg2ukpgPage u k) ms) w1 fun r w' ↦
        ∃ ms, Eff w w' (w.leaf.copy u k ms) ∧ ms ⊆ ns ∧ (r.isNone = true → ms = ns) by
    apply h w [] ns rfl
    rw [Leaves.copy_nil]
    exact .refl w
  intro w1 done ms hns h1
  induction ms generalizing w1 done with
  | nil =>
    rw [stopAt, ensures_pure]
    rw [List.append_nil] at hns
    subst hns
    exact ⟨ns, h1, fun _ h ↦ h, fun _ ↦ rfl⟩
  | cons n ms ih =>
    rw [stopAt, ensures_bind]
    apply (upg2ukpgPage_spec w1 u k n).mono
    intro b w2 h2
    rw [h1.leaf] at h2
    cases b with
    | false =>
      simp only [Bool.false_eq_true, if_false, ensures_pure] at h2 ⊢
      refine ⟨done, h1.trans h2, ?_, by simp⟩
      rw [hns]
      exact List.subset_append_left _ _
    | true =>
      simp only [if_true, Leaves.copy_copy _ huk] at h2 ⊢
      exact ih w2 (done ++ [n]) (by simp [hns]) (h1.trans h2)

/-- `upg2ukpg` of one page. -/
theorem upg2ukpg_one_spec (w : World P O F) (u k : Tbl P) (n : Nat) :
    Ensures (upg2ukpg u k [n]) w fun b w' ↦
      Eff w w' (if b then w.leaf.copy u k [n] else w.leaf) := by
  unfold upg2ukpg
  simp only [stopAt, ensures_bind, ensures_ite, ensures_pure]
  apply (upg2ukpgPage_spec w u k n).mono
  intro b w1 h1
  cases b with
  | false => simpa using h1
  | true => simpa using h1

/-- The kernel table gets one entry. -/
theorem vmSyncUserPage_spec (w : World P O F) (p : P) (n : Nat) :
    Ensures (vmSyncUserPage p n) w fun b w' ↦
      Eff w w' (if b then w.leaf.copy (.user p) (.kern p) [n] else w.leaf) := by
  unfold vmSyncUserPage
  rw [ensures_ite, ensures_pure]
  refine ⟨fun _ ↦ .refl w, fun _ ↦ ?_⟩
  exact upg2ukpg_one_spec w (.user p) (.kern p) n

/-- An entry that was missing is added and removed again. -/
theorem Leaves.put_drop (L : Leaves P) (t : Tbl P) (n : Nat) (x : Option Pte)
    (h : L t n = none) : (L.put t n x).drop t [n] = L := by
  ext t' m : 2
  simp only [Leaves.drop_apply, Leaves.put_apply, List.mem_singleton]
  split_ifs with hc
  · rw [hc.1, hc.2, h]
  · rfl

end Xv6K210.Vm
