import Xv6K210.Vm.Spaces

/-!
# The encoding of entries

An entry without the R, W and X bits is a pointer to a lower table, and `uvmunmap`
panics on it when `PTE_U` is off too, as it is in the kernel table. Every routine stores entries
with R or X only, with one exception: a device that populates its mappings at once does not look
at the permissions of the mapping.
-/

namespace Xv6K210.Vm

open Xv6K210.Base Prog Function

variable {P O F : Type}

/-- The entry can be read or executed. -/
def Pte.Sound (e : Pte) : Prop := e.perm.r = true ∨ e.perm.x = true

/-- A mapping that can be written can be read. -/
def Vma.Sound (v : Vma O) : Prop := v.prot.testBit 1 → v.prot.testBit 0

/-- Every entry of every table can be read or executed. -/
def Encoded (w : World P O F) : Prop :=
  (∀ t n e, w.leaf t n = some e → e.Sound) ∧ ∀ p i v, (w.proc p).vmas i = some v → v.Sound

/-- The panic of `uvmunmap` on an entry that is not a leaf. -/
def notLeaf : String := "uvmunmap: not a leaf"

/-- A routine that keeps the encoding and does not run into this panic. -/
abbrev Encodes {α : Type} (x : Kern P O F α) (out : α → Prop) : Prop :=
  Keeps (· ≠ notLeaf) Encoded x out

/-- The result says nothing. -/
abbrev anyway {α : Type} (_ : α) : Prop := True

/-- The mirror of a sound entry is sound. -/
theorem Pte.Sound.mirror {e : Pte} (h : e.Sound) : e.mirror.Sound := h

/-- A sound entry is not bare. -/
theorem Pte.Sound.bare {e : Pte} (h : e.Sound) : e.bare = false := by
  unfold Pte.bare
  rw [beq_eq_false_iff_ne]
  intro heq
  rcases h with h | h
  · rw [heq] at h
    cases h
  · rw [heq] at h
    cases h

/-- A change of the write bit keeps an entry sound. -/
theorem Pte.Sound.perm {e : Pte} (h : e.Sound) {perm : Perm} (hr : perm.r = e.perm.r)
    (hx : perm.x = e.perm.x) (pa : Nat) : (⟨pa, perm⟩ : Pte).Sound := by
  unfold Pte.Sound at h ⊢
  dsimp only
  rw [hr, hx]
  exact h

/-- What a mapping gives to a page when it permits an access. -/
theorem Vma.Sound.perm {v : Vma O} (h : v.Sound) {access : Access} (ha : v.allows access)
    (pa : Nat) : (⟨pa, v.perm⟩ : Pte).Sound := by
  unfold Vma.allows at ha
  cases access with
  | read => exact .inl ha
  | write => exact .inl (h ha)
  | exec => exact .inr ha

/-- What a mapping with some permission gives to a page. -/
theorem Vma.Sound.perm_of_ne_zero {v : Vma O} (h : v.Sound) (hlt : v.prot < 8)
    (hne : v.prot ≠ 0) (pa : Nat) : (⟨pa, v.perm⟩ : Pte).Sound := by
  have hbits : v.prot.testBit 0 ∨ v.prot.testBit 1 ∨ v.prot.testBit 2 := by
    by_contra hno
    have hzero : ∀ k < 8, k ≠ 0 → k.testBit 0 ∨ k.testBit 1 ∨ k.testBit 2 := by decide
    exact hno (hzero v.prot hlt hne)
  rcases hbits with hr | hw | hx
  · exact .inl hr
  · exact .inl (h hw)
  · exact .inr hx

/-! ### Physical pages and files -/

/-- `kalloc` writes no entry. -/
theorem kallocPage_encodes : Encodes (kallocPage : Kern P O F (Option Nat)) anyway := by
  unfold kallocPage
  apply keeps_get_bind
  intro w h
  split
  · apply keeps_ite
    · intro _
      exact keeps_bind (keeps_set h) fun _ _ ↦ keeps_pure trivial
    · intro _
      exact keeps_bind (keeps_set h) fun _ _ ↦ keeps_pure trivial
  · exact keeps_bind (keeps_set h) fun _ _ ↦ keeps_pure trivial
  · exact keeps_pure trivial

/-- `kfree` writes no entry. -/
theorem kfreePage_encodes (pa : Nat) : Encodes (kfreePage pa : Kern P O F Unit) anyway := by
  unfold kfreePage
  apply keeps_get_bind
  intro w h
  apply keeps_ite
  · intro _
    exact keeps_set h
  · intro _
    exact keeps_set h

/-- Freeing pages writes no entry. -/
theorem kfreePages_encodes (pas : List Nat) :
    Encodes (forEach kfreePage pas : Kern P O F Unit) anyway :=
  keeps_forEach fun pa _ ↦ kfreePage_encodes pa

/-- `kaddquota` writes no entry. -/
theorem kaddquota_encodes (pa : Nat) : Encodes (kaddquota pa : Kern P O F Unit) anyway :=
  keeps_modify fun _ h ↦ h

/-- Zeroing a page writes no entry. -/
theorem zeroPage_encodes (pa : Nat) : Encodes (zeroPage pa : Kern P O F Unit) anyway :=
  keeps_modify fun _ h ↦ h

/-- Copying a page writes no entry. -/
theorem copyPage_encodes (dst src : Nat) :
    Encodes (copyPage dst src : Kern P O F Unit) anyway :=
  keeps_modify fun _ h ↦ h

private theorem kmalloc_encodes : Encodes (kmalloc : Kern P O F Bool) anyway := by
  unfold kmalloc
  apply keeps_get_bind
  intro w h
  split
  · exact keeps_bind (keeps_set h) fun _ _ ↦ keeps_pure trivial
  · exact keeps_pure trivial

/-- `elock` writes no entry. -/
theorem elock_encodes : Encodes (elock : Kern P O F Unit) anyway := keeps_modify fun _ h ↦ h

private theorem filereadAt_encodes (f : F) (pa offset n : Nat) :
    Encodes (filereadAt f pa offset n : Kern P O F Bool) anyway := by
  unfold filereadAt
  apply keeps_get_bind
  intro w _
  refine keeps_exit trivial fun _ ↦ ?_
  apply keeps_bind elock_encodes
  intro _ _
  exact keeps_bind (keeps_modify fun _ h ↦ h) fun _ _ ↦ keeps_pure trivial

private theorem filewriteAt_encodes (f : F) (pa offset n : Nat) :
    Encodes (filewriteAt f pa offset n : Kern P O F Bool) anyway := by
  unfold filewriteAt
  apply keeps_get_bind
  intro w _
  refine keeps_exit trivial fun _ ↦ ?_
  apply keeps_bind elock_encodes
  intro _ _
  refine keeps_exit trivial fun _ ↦ ?_
  unfold ewriteAt
  apply keeps_get_bind
  intro w h
  exact keeps_bind (keeps_set h) fun _ _ ↦ keeps_pure trivial

/-- A lock mark writes no entry. -/
theorem setHeld_encodes (b : Bool) : Encodes (setHeld b : Kern P O F Unit) anyway :=
  keeps_modify fun _ h ↦ h

section

variable [DecidableEq F]

/-- `filedup` writes no entry. -/
theorem filedup_encodes (f : F) : Encodes (filedup f : Kern P O F Unit) anyway := by
  unfold filedup
  apply keeps_get_bind
  intro w h
  apply keeps_ite
  · intro _
    exact keeps_halt (by decide)
  · intro _
    exact keeps_set h

/-- `fileclose` writes no entry. -/
theorem fileclose_encodes (f : F) : Encodes (fileclose f : Kern P O F Unit) anyway := by
  unfold fileclose
  apply keeps_get_bind
  intro w h
  apply keeps_ite
  · intro _
    exact keeps_halt (by decide)
  · intro _
    apply keeps_ite
    · intro _
      exact keeps_set h
    · intro _
      exact keeps_set h

end

/-! ### Tables -/

variable [DecidableEq P]

omit [DecidableEq P] in
/-- `walk` reads a sound entry. -/
theorem walk_encodes (t : Tbl P) (n : Nat) :
    Encodes (walk t n : Kern P O F (Option Pte)) fun r ↦ ∀ e, r = some e → e.Sound := by
  unfold walk
  apply keeps_get_bind
  intro w h
  apply keeps_ite
  · intro _
    exact keeps_halt (by decide)
  · intro _
    exact keeps_pure fun e he ↦ h.1 t n e he

/-- A change of a table that stores sound entries only. -/
theorem setPt_encodes (t : Tbl P) {f : PageTable → PageTable}
    (hf : ∀ (pt : PageTable) (n : Nat) (e : Pte), (f pt).leaf[n]? = some e →
      pt.leaf[n]? = some e ∨ e.Sound) :
    Encodes (setPt t f : Kern P O F Unit) anyway := by
  unfold setPt
  apply keeps_modify
  intro w h
  refine ⟨?_, h.2⟩
  intro t' n e he
  by_cases ht : t' = t
  · subst ht
    unfold World.leaf at he
    dsimp only at he
    rw [update_self] at he
    rcases hf _ n e he with hold | hnew
    · exact h.1 t' n e hold
    · exact hnew
  · unfold World.leaf at he
    dsimp only at he
    rw [update_of_ne ht] at he
    exact h.1 t' n e he

/-- A sound entry is written. -/
theorem setLeaf_encodes (t : Tbl P) (n : Nat) {e : Pte} (he : e.Sound) :
    Encodes (setLeaf t n e : Kern P O F Unit) anyway := by
  apply setPt_encodes
  intro pt m e' h
  rw [Std.ExtTreeMap.getElem?_insert] at h
  split_ifs at h
  · cases h
    exact .inr he
  · exact .inl h

private theorem clearLeaf_encodes (t : Tbl P) (n : Nat) :
    Encodes (clearLeaf t n : Kern P O F Unit) anyway := by
  apply setPt_encodes
  intro pt m e' h
  rw [Std.ExtTreeMap.getElem?_erase] at h
  split_ifs at h
  exact .inl h

private theorem walkLevel_encodes (t : Tbl P) (there : PageTable → Bool)
    {put : Nat → PageTable → PageTable} (hput : ∀ pa pt, (put pa pt).leaf = pt.leaf) :
    Encodes (walkLevel t there put : Kern P O F Bool) anyway := by
  unfold walkLevel
  apply keeps_get_bind
  intro w _
  refine keeps_exit trivial fun _ ↦ ?_
  apply keeps_bind kallocPage_encodes
  intro r _
  cases r with
  | none => exact keeps_pure trivial
  | some pa =>
    apply keeps_bind (zeroPage_encodes pa)
    intro _ _
    refine keeps_bind (setPt_encodes t ?_) fun _ _ ↦ keeps_pure trivial
    intro pt n e he
    rw [hput] at he
    exact .inl he

private theorem walkAlloc_encodes (t : Tbl P) (n : Nat) :
    Encodes (walkAlloc t n : Kern P O F Bool) anyway := by
  unfold walkAlloc
  apply keeps_ite
  · intro _
    exact keeps_halt (by decide)
  · intro _
    refine keeps_bind (walkLevel_encodes t _ ?_) ?_
    · intro _ _
      rfl
    · intro b _
      apply keeps_ite
      · intro _
        apply walkLevel_encodes
        intro _ _
        rfl
      · intro _
        exact keeps_pure trivial

/-- `mappages` of a sound entry. -/
theorem mappages_encodes (t : Tbl P) (n : Nat) {pa : Nat} {perm : Perm}
    (he : (⟨pa, perm⟩ : Pte).Sound) :
    Encodes (mappages t n pa perm : Kern P O F Bool) anyway := by
  unfold mappages
  apply keeps_bind (walkAlloc_encodes t n)
  intro b _
  apply keeps_ite
  · intro _
    apply keeps_get_bind
    intro w _
    apply keeps_ite
    · intro _
      exact keeps_halt (by decide)
    · intro _
      exact keeps_bind (setLeaf_encodes t n he) fun _ _ ↦ keeps_pure trivial
  · intro _
    exact keeps_pure trivial

/-- `uvmunmap` meets no entry that is not a leaf. -/
theorem uvmunmap_encodes (t : Tbl P) (ns : List Nat) (doFree : Bool) :
    Encodes (uvmunmap t ns doFree : Kern P O F Unit) anyway := by
  apply keeps_forEach
  intro n _
  unfold uvmunmapPage
  apply keeps_bind (walk_encodes t n)
  intro r hr
  cases r with
  | none => exact keeps_pure trivial
  | some e =>
    apply keeps_ite
    · intro hbare
      rw [(hr e rfl).bare] at hbare
      cases hbare
    · intro _
      apply keeps_bind (keeps_doIf fun _ ↦ kfreePage_encodes e.pa)
      intro _ _
      exact clearLeaf_encodes t n

/-- `upg2ukpg` writes mirrors of sound entries. -/
theorem upg2ukpg_encodes (u k : Tbl P) (ns : List Nat) :
    Encodes (upg2ukpg u k ns : Kern P O F Bool) anyway := by
  unfold upg2ukpg
  apply keeps_bind
  · apply keeps_stopAt
    intro n _
    unfold upg2ukpgPage
    apply keeps_bind (walk_encodes u n)
    intro r hr
    cases r with
    | none => exact keeps_pure trivial
    | some e =>
      apply keeps_bind (walkAlloc_encodes k n)
      intro b _
      apply keeps_ite
      · intro _
        exact keeps_bind (setLeaf_encodes k n (hr e rfl).mirror) fun _ _ ↦ keeps_pure trivial
      · intro _
        exact keeps_pure trivial
  · intro r _
    exact keeps_pure trivial

/-- One page is synchronised with a sound entry. -/
theorem vmSyncUserPage_encodes (p : P) (n : Nat) :
    Encodes (vmSyncUserPage p n : Kern P O F Bool) anyway :=
  keeps_ite (fun _ ↦ keeps_pure trivial) fun _ ↦ upg2ukpg_encodes _ _ _

/-- `freewalk` writes no entry. -/
theorem freewalk_encodes (t : Tbl P) : Encodes (freewalk t : Kern P O F Unit) anyway := by
  unfold freewalk
  apply keeps_get_bind
  intro w _
  apply keeps_ite
  · intro _
    apply keeps_bind (kfreePages_encodes _)
    intro _ _
    apply setPt_encodes
    intro pt n e he
    simp [PageTable.null] at he
  · intro _
    exact keeps_halt (by decide)

/-- `ukvmfree` writes no entry. -/
theorem ukvmfree_encodes (t : Tbl P) : Encodes (ukvmfree t : Kern P O F Unit) anyway := by
  unfold ukvmfree
  apply keeps_get_bind
  intro w _
  apply keeps_bind (kfreePages_encodes _)
  intro _ _
  apply setPt_encodes
  intro pt n e he
  simp [PageTable.null] at he

/-- `uvmcreate` writes no entry. -/
theorem uvmcreate_encodes (t : Tbl P) : Encodes (uvmcreate t : Kern P O F Bool) anyway := by
  unfold uvmcreate
  apply keeps_bind kallocPage_encodes
  intro r _
  cases r with
  | none => exact keeps_pure trivial
  | some pa =>
    apply keeps_bind (zeroPage_encodes pa)
    intro _ _
    refine keeps_bind (setPt_encodes t ?_) fun _ _ ↦ keeps_pure trivial
    intro pt n e he
    simp at he

/-! ### Objects and fault operations -/

section

variable [DecidableEq O]

section

omit [DecidableEq P] [DecidableEq O]

private theorem kbufPages_encodes (k : Nat) (acc : List Nat) :
    Encodes (kbufPages k acc : Kern P O F (Option (List Nat))) anyway := by
  induction k generalizing acc with
  | zero => exact keeps_pure trivial
  | succ k ih =>
    unfold kbufPages
    apply keeps_bind kmalloc_encodes
    intro b _
    apply keeps_ite
    · intro _
      apply keeps_bind kallocPage_encodes
      intro r _
      cases r with
      | none => exact keeps_bind (kfreePages_encodes acc) fun _ _ ↦ keeps_pure trivial
      | some pa => exact keeps_bind (zeroPage_encodes pa) fun _ _ ↦ ih _
    · intro _
      exact keeps_bind (kfreePages_encodes acc) fun _ _ ↦ keeps_pure trivial

private theorem kbufCreate_encodes (size : Nat) :
    Encodes (kbufCreate size : Kern P O F (Option (List Nat))) anyway := by
  unfold kbufCreate
  refine keeps_exit trivial fun _ ↦ ?_
  apply keeps_bind kmalloc_encodes
  intro b _
  apply keeps_ite
  · intro _
    exact kbufPages_encodes _ _
  · intro _
    exact keeps_pure trivial

private theorem mmapObjectAlloc_encodes :
    Encodes (mmapObjectAlloc : Kern P O F (Option O)) anyway := by
  unfold mmapObjectAlloc
  apply keeps_get_bind
  intro w h
  split
  · exact keeps_bind (keeps_set h) fun _ _ ↦ keeps_pure trivial
  · exact keeps_bind (keeps_set h) fun _ _ ↦ keeps_pure trivial
  · exact keeps_pure trivial

end

omit [DecidableEq P] in
private theorem setObj_encodes (o : O) (x : Option (MmapObject F)) :
    Encodes (setObj o x : Kern P O F Unit) anyway :=
  keeps_modify fun _ h ↦ h

omit [DecidableEq P] in
/-- A reference to an object writes no entry. -/
theorem mmapObjectGet_encodes (o : Option O) :
    Encodes (mmapObjectGet o : Kern P O F Unit) anyway := by
  unfold mmapObjectGet
  apply keeps_get_bind
  intro w _
  split
  · apply keeps_ite
    · intro _
      exact keeps_halt (by decide)
    · intro _
      exact setObj_encodes _ _
  · exact keeps_halt (by decide)

omit [DecidableEq P] in
private theorem anonPageGet_encodes (o : O) (index : Nat) :
    Encodes (anonPageGet o index : Kern P O F (Option Nat)) anyway := by
  have hlookup : Encodes (anonLookup o index : Kern P O F (Option Nat)) anyway := by
    unfold anonLookup
    apply keeps_get_bind
    intro w _
    split
    · exact keeps_pure trivial
    · exact keeps_bind (kaddquota_encodes _) fun _ _ ↦ keeps_pure trivial
  have hcandidate : Encodes (anonCandidate : Kern P O F (Option Nat)) anyway := by
    unfold anonCandidate
    apply keeps_bind kallocPage_encodes
    intro r _
    cases r with
    | none => exact keeps_pure trivial
    | some pa =>
      apply keeps_bind (zeroPage_encodes pa)
      intro _ _
      apply keeps_bind kmalloc_encodes
      intro b _
      refine keeps_exit trivial fun _ ↦ ?_
      exact keeps_bind (kfreePage_encodes pa) fun _ _ ↦ keeps_pure trivial
  have hinsert : ∀ pa, Encodes (anonInsert o index pa : Kern P O F Nat) anyway := by
    intro pa
    unfold anonInsert
    apply keeps_get_bind
    intro w _
    split
    · exact keeps_halt (by decide)
    · split
      · apply keeps_bind (kaddquota_encodes _)
        intro _ _
        exact keeps_bind (kfreePage_encodes pa) fun _ _ ↦ keeps_pure trivial
      · apply keeps_bind (setObj_encodes _ _)
        intro _ _
        exact keeps_bind (kaddquota_encodes pa) fun _ _ ↦ keeps_pure trivial
  unfold anonPageGet
  apply keeps_bind hlookup
  intro r _
  cases r with
  | some pa => exact keeps_pure trivial
  | none =>
    apply keeps_bind hcandidate
    intro r _
    cases r with
    | none => exact keeps_pure trivial
    | some pa => exact keeps_bind (hinsert pa) fun _ _ ↦ keeps_pure trivial

omit [DecidableEq P] in
/-- The backing page writes no entry. -/
theorem vmaFault_encodes (v : Vma O) (n : Nat) :
    Encodes (vmaFault v n : Kern P O F (Option Nat)) anyway := by
  unfold vmaFault
  split
  · unfold mmapFileFault
    apply keeps_bind kallocPage_encodes
    intro r _
    cases r with
    | none => exact keeps_pure trivial
    | some pa =>
      apply keeps_bind (zeroPage_encodes pa)
      intro _ _
      apply keeps_ite
      · intro _
        exact keeps_bind (kfreePage_encodes pa) fun _ _ ↦ keeps_pure trivial
      · intro _
        refine keeps_exit trivial fun _ ↦ ?_
        apply keeps_get_bind
        intro w _
        split
        · exact keeps_halt (by decide)
        · apply keeps_bind (filereadAt_encodes _ _ _ _)
          intro b _
          refine keeps_exit trivial fun _ ↦ ?_
          exact keeps_bind (kfreePage_encodes pa) fun _ _ ↦ keeps_pure trivial
  · unfold mmapAnonFault
    apply keeps_ite
    · intro _
      split
      · exact keeps_halt (by decide)
      · exact anonPageGet_encodes _ _
    · intro _
      apply keeps_bind kallocPage_encodes
      intro r _
      cases r with
      | none => exact keeps_pure trivial
      | some pa => exact keeps_bind (zeroPage_encodes pa) fun _ _ ↦ keeps_pure trivial
  · unfold mmapKbufFault
    apply keeps_get_bind
    intro w _
    split
    · exact keeps_pure trivial
    · split
      · exact keeps_pure trivial
      · exact keeps_bind (kaddquota_encodes _) fun _ _ ↦ keeps_pure trivial

/-- A fault in a sound mapping writes sound entries. -/
theorem mmapFaultPage_encodes (p : P) {v : Vma O} (hv : v.Sound) (n : Nat) (access : Access) :
    Encodes (mmapFaultPage p v n access : Kern P O F FaultResult) anyway := by
  unfold mmapFaultPage
  refine keeps_exit trivial fun hacc ↦ ?_
  simp only [not_or, Bool.not_eq_false] at hacc
  apply keeps_bind (walk_encodes _ n)
  intro r _
  cases r with
  | some e => exact keeps_pure trivial
  | none =>
    refine keeps_exit trivial fun _ ↦ ?_
    apply keeps_bind (vmaFault_encodes v n)
    intro r _
    cases r with
    | none => exact keeps_pure trivial
    | some pa =>
      apply keeps_bind (mappages_encodes _ n (hv.perm hacc.2 pa))
      intro b _
      apply keeps_ite
      · intro _
        apply keeps_bind (vmSyncUserPage_encodes p n)
        intro b _
        refine keeps_exit trivial fun _ ↦ ?_
        exact keeps_bind (uvmunmap_encodes _ _ _) fun _ _ ↦ keeps_pure trivial
      · intro _
        exact keeps_bind (kfreePage_encodes pa) fun _ _ ↦ keeps_pure trivial

end

/-! ### Mappings -/

/-- A slot takes a sound mapping. -/
theorem setVma_encodes (p : P) (i : Fin nvma) {v : Option (Vma O)}
    (hv : ∀ x, v = some x → x.Sound) : Encodes (setVma p i v : Kern P O F Unit) anyway := by
  unfold setVma
  apply keeps_modify
  intro w h
  refine ⟨h.1, ?_⟩
  intro q j x hx
  dsimp only at hx
  rw [update_apply] at hx
  split_ifs at hx with hq
  · dsimp only at hx
    rw [update_apply] at hx
    split_ifs at hx
    · exact hv x hx
    · exact h.2 p j x hx
  · exact h.2 q j x hx

/-- Pages are unmapped. -/
theorem vmaUnmapPages_encodes (p : P) (start fin : Nat) :
    Encodes (vmaUnmapPages p start fin : Kern P O F Unit) anyway := by
  apply keeps_forEach
  intro n _
  unfold vmaUnmapPage
  apply keeps_bind (uvmunmap_encodes _ _ _)
  intro _ _
  exact uvmunmap_encodes _ _ _

omit [DecidableEq P] in
private theorem mmapFileWritebackRange_encodes (p : P) (v : Vma O) (start fin : Nat) :
    Encodes (mmapFileWritebackRange p v start fin : Kern P O F Bool) anyway := by
  unfold mmapFileWritebackRange
  refine keeps_exit trivial fun _ ↦ ?_
  apply keeps_bind
  · apply keeps_stopAt
    intro n _
    unfold mmapFileWritebackPage
    refine keeps_exit trivial fun _ ↦ ?_
    apply keeps_bind (walk_encodes _ n)
    intro r _
    cases r with
    | none => exact keeps_pure trivial
    | some e =>
      refine keeps_exit trivial fun _ ↦ ?_
      refine keeps_exit trivial fun _ ↦ ?_
      apply keeps_get_bind
      intro w _
      split
      · exact keeps_halt (by decide)
      · exact filewriteAt_encodes _ _ _ _
  · intro _ _
    exact keeps_pure trivial

variable [DecidableEq O] [DecidableEq F]

omit [DecidableEq P] in
/-- A new object writes no entry. -/
theorem mmapObjectCreate_encodes (type : VmaType) (file : Option F) (flags size : Nat) :
    Encodes (mmapObjectCreate type file flags size : Kern P O F (Option O)) anyway := by
  have hset : ∀ (o : O) (x : Option (MmapObject F)),
      Encodes (do
        setObj o x
        pure (some o) : Kern P O F (Option O)) anyway :=
    fun o x ↦ keeps_bind (setObj_encodes o x) fun _ _ ↦ keeps_pure trivial
  unfold mmapObjectCreate
  apply keeps_bind mmapObjectAlloc_encodes
  intro r _
  cases r with
  | none => exact keeps_pure trivial
  | some o =>
    cases type with
    | file =>
      cases file with
      | none => exact keeps_halt (by decide)
      | some f => exact keeps_bind (filedup_encodes f) fun _ _ ↦ hset o _
    | anon =>
      apply keeps_ite
      · intro _
        apply keeps_bind kmalloc_encodes
        intro b _
        apply keeps_ite
        · intro _
          exact hset o _
        · intro _
          exact keeps_pure trivial
      · intro _
        exact hset o _
    | kbuf =>
      apply keeps_bind (kbufCreate_encodes size)
      intro r _
      cases r with
      | none => exact keeps_pure trivial
      | some pas =>
        cases file with
        | none => exact keeps_halt (by decide)
        | some f => exact keeps_bind (filedup_encodes f) fun _ _ ↦ hset o _

omit [DecidableEq P] in
/-- The end of an object writes no entry. -/
theorem mmapObjectPut_encodes (o : O) : Encodes (mmapObjectPut o : Kern P O F Unit) anyway := by
  unfold mmapObjectPut
  apply keeps_get_bind
  intro w _
  split
  · exact keeps_halt (by decide)
  · rename_i x _
    apply keeps_ite
    · intro _
      exact keeps_halt (by decide)
    · intro _
      apply keeps_ite
      · intro _
        unfold mmapObjectDestroy
        apply keeps_bind
        · apply keeps_bind (keeps_forEach fun f _ ↦ fileclose_encodes f)
          intro _ _
          apply keeps_bind (kfreePages_encodes _)
          intro _ _
          exact kfreePages_encodes _
        · intro _ _
          exact setObj_encodes _ _
      · intro _
        exact setObj_encodes _ _

omit [DecidableEq P] in
private theorem putIfAny_encodes (o : Option O) :
    Encodes (putIfAny o : Kern P O F Unit) anyway := by
  cases o with
  | none => exact keeps_pure trivial
  | some o => exact mmapObjectPut_encodes o

/-- A part of a mapping has its permissions. -/
theorem unmapSlot_encodes (p : P) (addr fin : Nat) (split : Option (Fin nvma)) (i : Fin nvma) :
    Encodes (unmapSlot p addr fin split i : Kern P O F (Option (Fin nvma))) anyway := by
  unfold unmapSlot
  apply keeps_get_bind
  intro w h
  cases hi : (w.proc p).vmas i with
  | none => exact keeps_pure trivial
  | some old =>
    have hold : old.Sound := h.2 p i old hi
    have hpart : ∀ (j : Fin nvma) (v : Vma O) (x : Kern P O F (Option (Fin nvma))),
        v.prot = old.prot → Encodes x anyway →
          Encodes (setVma p j (some v) >>= fun _ ↦ x) anyway := by
      intro j v x hprot hx
      refine keeps_bind (setVma_encodes p j ?_) fun _ _ ↦ hx
      rintro x ⟨⟩
      unfold Vma.Sound at hold ⊢
      rw [hprot]
      exact hold
    apply keeps_ite
    · intro _
      apply keeps_bind (vmaUnmapPages_encodes p _ _)
      intro _ _
      apply keeps_ite
      · intro _
        apply keeps_bind (setVma_encodes p i (by simp))
        intro _ _
        exact keeps_bind (putIfAny_encodes _) fun _ _ ↦ keeps_pure trivial
      · intro _
        apply keeps_ite
        · intro _
          exact hpart i _ _ rfl (keeps_pure trivial)
        · intro _
          apply keeps_ite
          · intro _
            exact hpart i _ _ rfl (keeps_pure trivial)
          · intro _
            cases split with
            | none => exact keeps_halt (by decide)
            | some j =>
              refine hpart j _ _ rfl (keeps_bind (mmapObjectGet_encodes _) fun _ _ ↦ ?_)
              exact hpart i _ _ rfl (keeps_pure trivial)
    · intro _
      exact keeps_pure trivial

/-- `vma_unmap` leaves sound entries. -/
theorem vmaUnmap_encodes (p : P) (addr length : Nat) :
    Encodes (vmaUnmap p addr length : Kern P O F Bool) anyway := by
  have hslots : ∀ (fin : Nat) (is : List (Fin nvma)) (split : Option (Fin nvma)),
      Encodes (unmapSlots p addr fin split is : Kern P O F Unit) anyway := by
    intro fin is
    induction is with
    | nil =>
      intro _
      exact keeps_pure trivial
    | cons i is ih =>
      intro split
      exact keeps_bind (unmapSlot_encodes p addr fin split i) fun split _ ↦ ih split
  unfold vmaUnmap
  apply keeps_get_bind
  intro w _
  refine keeps_exit trivial fun _ ↦ ?_
  refine keeps_exit trivial fun _ ↦ ?_
  refine keeps_exit trivial fun _ ↦ ?_
  refine keeps_exit trivial fun _ ↦ ?_
  refine keeps_exit trivial fun _ ↦ ?_
  apply keeps_bind
  · apply keeps_stopAt
    intro i _
    unfold writebackSlot
    apply keeps_get_bind
    intro w _
    split
    · exact keeps_pure trivial
    · apply keeps_ite
      · intro _
        exact mmapFileWritebackRange_encodes _ _ _ _
      · intro _
        exact keeps_pure trivial
  · intro r _
    cases r with
    | some i => exact keeps_pure trivial
    | none => exact keeps_bind (hslots _ _ _) fun _ _ ↦ keeps_pure trivial

/-- The end of all mappings. -/
theorem vmaDestroyAll_encodes (p : P) : Encodes (vmaDestroyAll p : Kern P O F Unit) anyway := by
  apply keeps_forEach
  intro i _
  unfold destroySlot
  apply keeps_get_bind
  intro w _
  split
  · exact keeps_pure trivial
  · apply keeps_bind
    · apply keeps_doIf
      intro _
      exact keeps_bind (mmapFileWritebackRange_encodes _ _ _ _) fun _ _ ↦ keeps_pure trivial
    · intro _ _
      apply keeps_bind (keeps_doIf fun _ ↦ vmaUnmapPages_encodes p _ _)
      intro _ _
      apply keeps_bind (putIfAny_encodes _)
      intro _ _
      exact setVma_encodes p i (by simp)

end Xv6K210.Vm
