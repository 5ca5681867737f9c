import Xv6K210.Vm.ExecArgs
import Xv6K210.Vm.TallyExec

/-!
# The stages of exec

Source `kernel/proc/exec.c:36–173`. Until the kernel table has the pages of the image
nothing depends on the arguments; behind that only they decide whether `exec` succeeds. Either way
every page in use has an owner at the end, and the image is gone: its table is freed or is the user
table now.
-/

namespace Xv6K210.Vm

open Xv6K210.Base Prog

variable {P O F : Type} [DecidableEq P]

/-! ### Two halves -/

/-- `exec`, up to the pages of the image in the kernel table; the size of the image. -/
def execLoad (b : Boot P) (p : P) (headerOk : Bool) (segs : List Seg) (oldsz trapframe : Nat) :
    Kern P O F (Option Nat) := do
  elock
  if headerOk = false then
    pure none
  else if ← procPagetable b (.image p) trapframe then
    let (loaded, sz) ← loadSegs (.image p) 0 segs
    if loaded = false then
      procFreepagetable (.image p) sz
      pure none
    else if ← uvmStackInit (.image p) then
      execStage p oldsz (pgroundup sz)
      pure (some (pgroundup sz))
    else
      procFreepagetable (.image p) (pgroundup sz)
      pure none
  else
    pure none

section

variable [DecidableEq O] [DecidableEq F]

/-- `exec`, from the arguments on. -/
def execFinish (p : P) (argv : List (List UInt8)) (oldsz sz : Nat) :
    Kern P O F (Option (Nat × Nat)) := do
  match ← execArgs p argv with
  | none =>
    execRestore p oldsz sz
    procFreepagetable (.image p) sz
    pure none
  | some r =>
    execCommit p oldsz sz
    pure (some r)

/-- What follows when the image is loaded. -/
def execRest (p : P) (argv : List (List UInt8)) (oldsz : Nat) :
    Option Nat → Kern P O F (Option (Nat × Nat))
  | none => pure none
  | some sz => execFinish p argv oldsz sz

/-- `exec` in its stages. -/
theorem exec_eq (b : Boot P) (p : P) (img : Image) :
    (exec b p img : Kern P O F (Option (Nat × Nat))) = (do
      let w ← get
      let r ← execLoad b p img.headerOk img.segs (w.proc p).sz ((w.proc p).trapframe.getD 0)
      execRest p img.argv (w.proc p).sz r) := by
  unfold exec execLoad
  refine bind_congr fun w ↦ ?_
  simp only [bind_assoc]
  refine bind_congr fun _ ↦ ?_
  by_cases hheader : img.headerOk = false
  · simp only [hheader, if_true, pure_bind, execRest]
  · simp only [if_neg hheader, bind_assoc]
    refine bind_congr fun ok ↦ ?_
    cases ok with
    | false => simp [execRest]
    | true =>
      simp only [if_true, bind_assoc]
      refine bind_congr fun r ↦ ?_
      by_cases hloaded : r.1 = false
      · simp only [hloaded, if_true, bind_assoc, pure_bind, execRest]
      · simp only [if_neg hloaded, bind_assoc]
        refine bind_congr fun ok ↦ ?_
        cases ok with
        | false => simp [execRest]
        | true =>
          simp only [if_true, bind_assoc, pure_bind, execRest]
          rfl

end

/-! ### The image goes -/

private theorem freewalk_null (w : World P O F) (t : Tbl P) :
    Ensures (freewalk t) w fun _ w' ↦ w'.there t = false := by
  unfold freewalk setPt
  simp only [ensures_bind, ensures_get, ensures_ite, ensures_modify]
  refine ⟨fun _ ↦ ?_, fun _ ↦ ensures_halt⟩
  apply (kfreePages_quiet w _).mono
  intro _ w1 _
  simp [World.there, PageTable.null]

private theorem uvmfree_null (w : World P O F) (t : Tbl P) (sz : Nat) :
    Ensures (uvmfree t sz) w fun _ w' ↦ w'.there t = false := by
  exact ensures_bind_of fun _ w1 ↦ freewalk_null w1 t

/-- `proc_freepagetable` leaves no table. -/
theorem procFreepagetable_null (w : World P O F) (t : Tbl P) (sz : Nat) :
    Ensures (procFreepagetable t sz) w fun _ w' ↦ w'.there t = false := by
  unfold procFreepagetable
  apply ensures_bind_of
  intro _ w1
  apply ensures_bind_of
  intro _ w2
  apply ensures_bind_of
  intro _ w3
  apply ensures_bind_of
  intro _ w4
  exact uvmfree_null w4 t sz

/-- A table that could not be made is missing. -/
theorem uvmcreate_null {w : World P O F} {t : Tbl P} (h : w.there t = false) :
    Ensures (uvmcreate t) w fun ok w' ↦ ok = false → w'.there t = false := by
  unfold uvmcreate
  apply (kallocPage_quiet w).bind
  intro r w1 h1
  cases r with
  | none =>
    rw [ensures_pure]
    exact fun _ ↦ (h1.core.there t).trans h
  | some pa =>
    apply ensures_bind_of
    intro _ w2
    apply ensures_bind_of
    intro _ w3
    rw [ensures_pure]
    exact nofun

/-- `proc_pagetable` leaves no table when it fails. -/
theorem procPagetable_null (b : Boot P) {w : World P O F} {t : Tbl P} (h : w.there t = false)
    (trapframe : Nat) :
    Ensures (procPagetable b t trapframe) w fun ok w' ↦ ok = false → w'.there t = false := by
  have hfail : ∀ w1 : World P O F, Ensures (do uvmfree t 0; pure false) w1 fun ok w' ↦
      ok = false → w'.there t = false := by
    intro w1
    simp only [ensures_bind, ensures_pure]
    exact (uvmfree_null w1 t 0).mono fun _ _ h _ ↦ h
  unfold procPagetable
  apply (uvmcreate_null h).bind
  intro ok w1 h1
  rw [ensures_ite, ensures_pure]
  refine ⟨fun _ ↦ ?_, fun hok _ ↦ h1 (by simpa using hok)⟩
  apply ensures_bind_of
  intro ok w2
  rw [ensures_ite]
  refine ⟨fun _ ↦ ?_, fun _ ↦ hfail w2⟩
  apply ensures_bind_of
  intro ok w3
  rw [ensures_ite]
  constructor
  · intro _
    apply ensures_bind_of
    intro ok w4
    rw [ensures_ite, ensures_pure]
    refine ⟨fun _ ↦ (by rintro ⟨⟩), fun _ ↦ ?_⟩
    apply ensures_bind_of
    intro _ w5
    apply ensures_bind_of
    intro _ w6
    exact hfail w6
  · intro _
    apply ensures_bind_of
    intro _ w4
    exact hfail w4

/-! ### Loading -/

omit [DecidableEq P] in
private theorem elock_tally (w : World P O F) :
    Ensures elock w fun _ w' ↦ Quiet w w' ∧ w'.quota = w.quota ∧ w'.mem = w.mem := by
  refine (elock_quiet w).and ?_
  unfold elock
  rw [ensures_modify]
  exact ⟨rfl, rfl⟩

/-- The image is loaded, and the kernel table of the process has its pages. -/
structure Staged (ct : Owner P O → Option (Nat → UInt8)) (fr : P → Option Nat) (hs : List Nat)
    (p : P) (oldsz sz : Nat) (w w' : World P O F) : Prop where
  filling : Filling ct fr hs (.image p) w'
  obj : w'.obj = w.obj
  le : sz ≤ maxuva
  changed : ∃ w1, At (.image p) w w1 ∧ Eff w1 w' (w1.leaf.reload (.image p) (.kern p)
    (copied (pgroundup oldsz)) (copied sz))
  stack : ∃ pa, w'.leaf (.image p) (stackbase / pgsize) =
    some ⟨pa, ⟨true, true, false, true, false⟩⟩

/-- The kernel table has the top page of the stack of the image. -/
theorem Staged.mirror {ct : Owner P O → Option (Nat → UInt8)} {fr : P → Option Nat}
    {hs : List Nat} {p : P} {oldsz sz : Nat} {w w' : World P O F}
    (h : Staged ct fr hs p oldsz sz w w') : ∃ pa,
      w'.leaf (.image p) (stackbase / pgsize) = some ⟨pa, ⟨true, true, false, true, false⟩⟩ ∧
      w'.leaf (.kern p) (stackbase / pgsize) = some ⟨pa, ⟨true, true, false, false, false⟩⟩ := by
  obtain ⟨w1, -, heff⟩ := h.changed
  obtain ⟨pa, hpa⟩ := h.stack
  have htop : stackbase / pgsize ∈ copied sz :=
    List.mem_append_right _ (mem_stackPages.mpr (by decide))
  have hpa1 := hpa
  rw [heff.leaf, Leaves.reload_ne _ (by simp)] at hpa1
  refine ⟨pa, hpa, ?_⟩
  rw [heff.leaf, Leaves.reload_same _ (by simp)]
  dsimp only
  rw [if_pos htop, hpa1]
  rfl

section

variable [Fintype P] (hP : Fintype.card P ≤ nproc) {ct : Owner P O → Option (Nat → UInt8)}
  {fr : P → Option Nat} {hs : List Nat} {w : World P O F} {p : P}

include hP

/-- The image of a failed `exec` is given up. -/
theorem abandon_tally (h : Tally ct fr hs w) {sz : Nat} (hsz : sz ≤ maxuva)
    (hct : ∀ z : Owner P O, z.table = some (.image p) → ct z = none) :
    Ensures (do procFreepagetable (.image p) sz; pure none : Kern P O F (Option Nat)) w
      fun r w' ↦ r = none ∧ w'.obj = w.obj ∧ Tally ct fr hs w' ∧ w'.there (.image p) = false := by
  apply ((procFreepagetable_tally hP h (t := .image p) trivial hsz hct).and
    (procFreepagetable_null w _ sz)).bind
  rintro _ w1 ⟨⟨h1, hobj1⟩, hnull⟩
  rw [ensures_pure]
  exact ⟨rfl, hobj1, h1, hnull⟩

/-- Whether the image could be loaded or not, every page in use has an owner. -/
theorem execLoad_tally (h : Tally ct fr hs w) (b : Boot P) (hk : w.there (.kern p) = true)
    (hi : w.there (.image p) = false) (headerOk : Bool) (segs : List Seg) {oldsz : Nat}
    (hold : oldsz ≤ maxuva) (trapframe : Nat) :
    Ensures (execLoad b p headerOk segs oldsz trapframe) w fun r w' ↦
      match r with
      | none => w'.obj = w.obj ∧ Tally ct fr hs w' ∧ w'.there (.image p) = false
      | some sz => Staged ct fr hs p oldsz sz w w' := by
  have hroot : w.owns fr (.root (.image p)) = none := by simpa [World.there, World.owns] using hi
  have hct : ∀ z : Owner P O, z.table = some (.image p) → ct z = none := fun z hz ↦
    h.rootless hroot hz
  have hp : (Tbl.image p).Process := trivial
  have hentry : ∀ n, ct (Tbl.entry (.image p) n) = none := fun n ↦ hct _ (Tbl.table_entry _ n)
  unfold execLoad
  apply (elock_tally w).bind
  rintro _ w1 ⟨hq1, hquota1, hmem1⟩
  have h1 : Tally ct fr hs w1 := h.quiet hq1 hquota1 hmem1
  have hroot1 : w1.owns fr (.root (.image p)) = none := by rw [hq1.owns, hroot]
  have hi1 : w1.there (.image p) = false := (hq1.core.there _).trans hi
  rw [ensures_ite, ensures_pure]
  refine ⟨fun _ ↦ ⟨hq1.obj, h1, hi1⟩, fun _ ↦ ?_⟩
  apply ((procPagetable_spec b w1 (.image p) trapframe).and
    ((procPagetable_null b hi1 trapframe).and
    (procPagetable_tally hP h1 b hp hroot1 trapframe))).bind
  rintro ok w2 ⟨⟨hat2, hblank⟩, hnull2, h2, hobj2⟩
  have hobj2' := hobj2.trans hq1.obj
  rw [ensures_ite, ensures_pure]
  refine ⟨fun hok ↦ ?_, fun hok ↦ ⟨hobj2', h2, hnull2 (by simpa using hok)⟩⟩
  have hb2 := hblank hok
  have hfill2 : Filling ct fr hs (.image p) w2 := by
    refine ⟨h2, hb2.there, fun n e hn he ↦ ?_⟩
    rw [hb2.leaf n hn] at he
    cases he
  have hbelow2 : Below (.image p) w2 0 := by
    intro n e hn he
    rw [hb2.leaf n hn] at he
    cases he
  apply ((loadSegs_spec (.image p) segs hbelow2).and
    (loadSegs_filling hP hp hentry segs hfill2 (Nat.zero_le _))).bind
  rintro ⟨loaded, sz⟩ w3 ⟨⟨hfill3, hbelow3⟩, hobj3, h3, hsz, hfilling3⟩
  dsimp only at hsz hfilling3 hbelow3 ⊢
  have hobj3' := hobj3.trans hobj2'
  have hle : pgroundup sz ≤ maxuva := pgroundup_le (by decide) hsz
  rw [ensures_ite]
  constructor
  · intro _
    apply (abandon_tally hP h3 hsz hct).mono
    rintro _ w4 ⟨rfl, hobj4, h4⟩
    exact ⟨hobj4.trans hobj3', h4⟩
  · intro hloaded
    rw [Bool.not_eq_false] at hloaded
    have hfill := hfilling3 hloaded
    apply ((uvmStackInit_spec (hbelow3 hloaded)).and (uvmStackInit_filling hP hfill hp)).bind
    rintro ok w4 ⟨⟨hfill4, -⟩, hobj4, h4⟩
    have hobj4' := hobj4.trans hobj3'
    have hat4 : At (.image p) w w4 :=
      (((hq1.at (.image p)).trans hat2).trans hfill3.at).trans hfill4.at
    rw [ensures_ite]
    constructor
    · intro hok4
      rw [if_pos hok4] at h4
      obtain ⟨hfilling4, pa, hpa⟩ := h4
      have hk4 : w4.there (.kern p) = true := by rw [hat4.there _ (by simp), hk]
      apply ((execStage_spec w4 p oldsz (pgroundup sz)).and (reload_tally hP hfilling4.tally hk4
        (by simp) hold hle _)).bind
      rintro _ w5 ⟨heff5, h5, hobj5, hs5⟩
      rw [ensures_pure]
      have himage : w5.leaf (.image p) = w4.leaf (.image p) := by
        rw [heff5.leaf, Leaves.reload_ne _ (by simp)]
      refine ⟨⟨h5, ?_, hfilling4.sole.steady himage hs5⟩, hobj5.trans hobj4', hle,
        ⟨w4, hat4, heff5⟩, pa, by rw [himage, hpa]⟩
      rw [heff5.core.there, hfilling4.there]
    · intro hok4
      rw [if_neg hok4] at h4
      apply (abandon_tally hP h4 hle hct).mono
      rintro _ w5 ⟨rfl, hobj5, h5⟩
      exact ⟨hobj5.trans hobj4', h5⟩

/-! ### The way back and the way on -/

omit [DecidableEq P] [Fintype P] hP in
/-- The arguments are written to the image. -/
theorem execArgs_filling {pa : Nat} {perm : Perm} (h : Filling ct fr hs (.image p) w)
    (hct : ∀ n, ct (.image p n) = none)
    (hi : w.leaf (.image p) (stackbase / pgsize) = some ⟨pa, perm⟩)
    (hk : w.leaf (.kern p) (stackbase / pgsize) = some (Pte.mirror ⟨pa, perm⟩))
    (argv : List (List UInt8)) :
    Ensures (execArgs p argv) w fun _ w' ↦ Quiet w w' ∧ Filling ct fr hs (.image p) w' := by
  apply (execArgs_frame hk argv).mono
  rintro r w' ⟨hq, hquota, hmem⟩
  exact ⟨hq, h.write trivial (by unfold UserPage; decide) hi (hct _) hq hquota hmem⟩

/-- Behind the arguments a failed `exec` takes the pages of the image out again. -/
theorem execUndo_tally (h : Filling ct fr hs (.image p) w) (hk : w.there (.kern p) = true)
    (hct : ∀ z : Owner P O, z.table = some (.image p) → ct z = none) {oldsz sz : Nat}
    (hold : oldsz ≤ maxuva) (hsz : sz ≤ maxuva) :
    Ensures (do execRestore p oldsz sz; procFreepagetable (.image p) sz; pure none :
      Kern P O F (Option (Nat × Nat))) w
      fun r w' ↦ r = none ∧ w'.obj = w.obj ∧ Tally ct fr hs w' ∧ w'.there (.image p) = false := by
  apply (reload_tally hP h.tally hk (by simp) hsz hold _).bind
  rintro _ w1 ⟨h1, hobj1, -⟩
  apply ((procFreepagetable_tally hP h1 (t := .image p) trivial hsz hct).and
    (procFreepagetable_null w1 _ sz)).bind
  rintro _ w2 ⟨⟨h2, hobj2⟩, hnull⟩
  rw [ensures_pure]
  exact ⟨rfl, hobj2.trans hobj1, h2, hnull⟩

variable [DecidableEq O] [DecidableEq F]

/-- The owner is a user entry of another process. -/
def Owner.Foreign (p : P) (x : Owner P O) : Prop := ∃ q n, q ≠ p ∧ x = .user q n

omit [DecidableEq P] [Fintype P] hP [DecidableEq O] [DecidableEq F] in
private theorem Owner.not_foreign (p : P) (n : Nat) : ¬ (Owner.user p n : Owner P O).Foreign p := by
  rintro ⟨q, m, hq, heq⟩
  cases heq
  exact hq rfl

/-- When nothing fails the old memory is freed, and what the image held is what the process
holds. -/
theorem execCommit_tally (h : Tally ct fr hs w) (hlay : Layout (w.proc p).sz (w.proc p).vmas)
    (hu : w.there (.user p) = true) (hk : w.there (.kern p) = true) (himage : ∀ q,
      q ≠ p → w.there (.image q) = false)
    (hct : ∀ x, ct x ≠ none → (∃ n, x = .image p n) ∨ x.Foreign p) {oldsz : Nat}
    (hold : oldsz ≤ maxuva) (sz : Nat) :
    Ensures (execCommit p oldsz sz) w fun _ w' ↦
      Tally (fun x ↦ ct (x.swap p)) fr hs w' ∧ w'.there (.image p) = false := by
  have hnone : ∀ x : Owner P O, (∀ n, x ≠ .image p n) → ¬ x.Foreign p → ct x = none := by
    intro x hx hforeign
    by_contra hne
    rcases hct x hne with ⟨n, rfl⟩ | hf
    · exact hx n rfl
    · exact hforeign hf
  have hobjects : NoObjects ct := by
    intro z b hz
    apply hnone
    · rintro n rfl
      cases hz
    · rintro ⟨q, n, -, rfl⟩
      cases hz
  unfold execCommit
  apply ((vmaDestroyAll_spec w p hu hk).and (vmaDestroyAll_tally hP h hlay (.inl ⟨hu, hk⟩)
    hobjects fun n ↦ hnone _ nofun (Owner.not_foreign p n))).bind
  rintro _ w1 ⟨⟨ns, hslots, -⟩, h1⟩
  have hvmas : (w1.proc p).vmas = fun _ ↦ none := by
    rw [hslots.proc, Function.update_self]
  have hothers : ∀ q, q ≠ p → ∀ n, w1.owns fr (.image q n) = none := by
    intro q hq n
    refine h1.null (.image q) ?_ _ rfl
    have hthere := hslots.there (.image q)
    rw [himage q hq] at hthere
    simpa [World.there, World.owns] using hthere
  rw [ensures_bind, ensures_modify]
  change Ensures _ (w1.swapTables p) _
  have h2 := h1.swap hvmas hothers
  have hsize : Ensures (setProc p fun q ↦ { q with sz := sz }) (w1.swapTables p) fun _ w' ↦
      Alike (w1.swapTables p) w' ∧ w'.quota = (w1.swapTables p).quota ∧
        w'.mem = (w1.swapTables p).mem := by
    unfold setProc
    rw [ensures_modify]
    refine ⟨⟨rfl, rfl, fun q ↦ ?_, fun q ↦ ?_⟩, rfl, rfl⟩
    · by_cases hq : q = p
      · subst hq
        simp
      · simp [hq]
    · by_cases hq : q = p
      · subst hq
        simp
      · simp [hq]
  apply hsize.bind
  rintro _ w2 ⟨halike, hquota, hmem⟩
  have h3 := h2.alike halike hquota hmem
  apply ((procFreepagetable_tally hP h3 (t := .image p) trivial hold ?_).and
    (procFreepagetable_null w2 _ oldsz)).mono
  · rintro _ w3 ⟨⟨h3, -⟩, hnull⟩
    exact ⟨h3, hnull⟩
  · intro z hz
    have htable := Owner.table_swap p z
    rw [hz] at htable
    apply hnone
    · intro n heq
      rw [heq] at htable
      simp [Owner.table, Tbl.swap] at htable
    · rintro ⟨q, n, hq, heq⟩
      rw [heq] at htable
      simp [Owner.table, Tbl.swap, hq] at htable

omit [Fintype P] hP in
/-- The entries of the image become those of the process. -/
theorem execCommit_leaf (hu : w.there (.user p) = true) (hk : w.there (.kern p) = true)
    (oldsz sz : Nat) :
    Ensures (execCommit p oldsz sz) w fun _ w' ↦ w'.leaf (.user p) = w.leaf (.image p) := by
  unfold execCommit
  apply (vmaDestroyAll_spec w p hu hk).bind
  rintro _ w1 ⟨ns, hslots, -⟩
  apply (swapTables_spec w1 p).bind
  rintro _ w2 ⟨-, huser2, -⟩
  have hset : Ensures (setProc p fun q ↦ { q with sz := sz }) w2 fun _ w' ↦
      w'.leaf = w2.leaf := by
    unfold setProc
    rw [ensures_modify]
    rfl
  apply hset.bind
  intro _ w3 hleaf3
  apply (procFreepagetable_at w3 (.image p) oldsz).mono
  intro _ w4 h4
  rw [h4.leaf _ (by simp), hleaf3, huser2, hslots.leaf, Leaves.unmap_ne _ _ _ (by simp) (by simp)]

/-! ### The whole call -/

/-- A failed `exec` frees every page that it took, except for tables; what owners hold is as it
was. -/
theorem exec_tally_none (h : Tally ct fr hs w) (b : Boot P) (hk : w.there (.kern p) = true)
    (hi : w.there (.image p) = false) (hsz : (w.proc p).sz ≤ maxuva) (img : Image) :
    Ensures (exec b p img) w fun r w' ↦
      r = none → w'.obj = w.obj ∧ Tally ct fr hs w' ∧ w'.there (.image p) = false := by
  have hroot : w.owns fr (.root (.image p)) = none := by simpa [World.there, World.owns] using hi
  have hct : ∀ z : Owner P O, z.table = some (.image p) → ct z = none := fun z hz ↦
    h.rootless hroot hz
  rw [exec_eq, ensures_bind, ensures_get, ensures_bind]
  apply (execLoad_tally hP h b hk hi _ _ hsz _).mono
  intro r w1 h1
  cases r with
  | none =>
    rw [execRest, ensures_pure]
    exact fun _ ↦ h1
  | some sz =>
    obtain ⟨pa, hpa, hmirror⟩ := h1.mirror
    have hk1 : w1.there (.kern p) = true := by
      obtain ⟨w0, hat, heff⟩ := h1.changed
      rw [heff.core.there, hat.there _ (by simp), hk]
    unfold execRest execFinish
    apply (execArgs_filling h1.filling (fun n ↦ hct _ rfl) hpa hmirror img.argv).bind
    rintro r w2 ⟨hq2, h2⟩
    cases r with
    | none =>
      have hk2 : w2.there (.kern p) = true := by rw [hq2.core.there, hk1]
      apply (execUndo_tally hP h2 hk2 hct hsz h1.le).mono
      rintro _ w3 ⟨-, hobj3, h3⟩ -
      exact ⟨hobj3.trans (hq2.obj.trans h1.obj), h3⟩
    | some r =>
      apply ensures_bind_of
      intro _ w3
      rw [ensures_pure]
      rintro ⟨⟩

/-- The top page of the stack of an image holds these bytes. -/
def toldStack (p : P) (m : Nat → UInt8) : Owner P O → Option (Nat → UInt8)
  | .image q n => if q = p ∧ n = stackbase / pgsize then some m else none
  | _ => none

omit [Fintype P] hP [DecidableEq O] [DecidableEq F] in
private theorem toldStack_image {m : Nat → UInt8} (x : Owner P O) (hx : toldStack p m x ≠ none) :
    ∃ n, x = .image p n := by
  cases x with
  | image q n =>
    unfold toldStack at hx
    dsimp only at hx
    split_ifs at hx with hq
    · exact ⟨n, by rw [hq.1]⟩
    · exact absurd rfl hx
  | _ => exact absurd rfl hx

/-- When `exec` succeeds the process has its arguments on the stack. -/
theorem exec_tally_some (h : Tally ct fr hs w) (b : Boot P) (halive : Alive w p)
    (hi : ∀ q, w.there (.image q) = false) (hsz : (w.proc p).sz ≤ maxuva)
    (hforeign : ∀ x, ct x ≠ none → x.Foreign p) (img : Image) :
    Ensures (exec b p img) w fun r w' ↦ ∀ argc sp, r = some (argc, sp) →
      Tally ct fr hs w' ∧ w'.there (.image p) = false ∧
      (img.argv.length ≤ maxarg → argc = img.argv.length ∧ argRoom img.argv ≤ pgsize ∧
        ∃ addrs, ArgStack w' p img.argv sp addrs) := by
  have hroot : w.owns fr (.root (.image p)) = none := by
    simpa [World.there, World.owns] using hi p
  have hct : ∀ z : Owner P O, z.table = some (.image p) → ct z = none := fun z hz ↦
    h.rootless hroot hz
  rw [exec_eq, ensures_bind, ensures_get, ensures_bind]
  apply (execLoad_tally hP h b halive.kern (hi p) _ _ hsz _).mono
  intro r w1 h1
  cases r with
  | none =>
    rw [execRest, ensures_pure]
    rintro _ _ ⟨⟩
  | some sz =>
    obtain ⟨pa, hpa, hmirror⟩ := h1.mirror
    obtain ⟨w0, hat, heff⟩ := h1.changed
    unfold execRest execFinish
    rw [ensures_bind]
    have hargs : Ensures (execArgs p img.argv) w1 fun r w' ↦ img.argv.length ≤ maxarg →
        if argRoom img.argv ≤ pgsize then r = some (img.argv.length, argSp img.argv) ∧
          w'.mem pa = storeAll (w1.mem pa) ((argPieces img.argv).map inStackPage)
        else r = none := by
      by_cases hmax : img.argv.length ≤ maxarg
      · exact (execArgs_spec hmirror hmax).mono fun _ _ hr _ ↦ hr
      · exact ⟨fun _ _ _ h ↦ absurd h hmax⟩
    apply ((execArgs_filling h1.filling (fun n ↦ hct _ rfl) hpa hmirror img.argv).and hargs).mono
    rintro r w2 ⟨⟨hq2, h2⟩, hr⟩
    cases r with
    | none =>
      apply ensures_bind_of
      intro _ w3
      apply ensures_bind_of
      intro _ w4
      rw [ensures_pure]
      rintro _ _ ⟨⟩
    | some r =>
      have hthere2 : ∀ t, t ≠ .image p → w2.there t = w.there t := by
        intro t ht
        rw [hq2.core.there, heff.core.there, hat.there t ht]
      have hproc2 : w2.proc = w.proc := by rw [hq2.core.proc, heff.core.proc, hat.proc]
      have hu2 : w2.there (.user p) = true := by rw [hthere2 _ (by simp), halive.user]
      have hk2 : w2.there (.kern p) = true := by rw [hthere2 _ (by simp), halive.kern]
      have hi2 : ∀ q, q ≠ p → w2.there (.image q) = false := by
        intro q hq
        rw [hthere2 _ (by simpa using hq), hi q]
      have hlay2 : Layout (w2.proc p).sz (w2.proc p).vmas := by
        rw [hproc2]
        exact halive.space.layout
      have htop : UserPage (stackbase / pgsize) := by
        unfold UserPage
        decide
      have hpa2 : w2.leaf (.image p) (stackbase / pgsize) =
          some ⟨pa, ⟨true, true, false, true, false⟩⟩ := by rw [hq2.leaf, hpa]
      -- what the top page of the stack holds is told of the image, and then of the process
      have htold : Tally (fun x ↦ (toldStack p (w2.mem pa) x).or (ct x)) fr hs w2 := by
        refine h2.tally.known_again fun x m hx ↦ ?_
        rcases Option.or_eq_some_iff.mp hx with hx | ⟨-, hx⟩
        · obtain ⟨n, rfl⟩ := toldStack_image x (by rw [hx]; exact Option.some_ne_none m)
          unfold toldStack at hx
          dsimp only at hx
          split_ifs at hx with hn
          cases hx
          refine ⟨pa, ?_, rfl⟩
          rw [hn.2]
          refine (w2.owns_entry (t := .image p) trivial htop).trans ?_
          rw [hpa2]
          rfl
        · exact h2.tally.kept x m hx
      have hroles : ∀ x, (toldStack p (w2.mem pa) x).or (ct x) ≠ none →
          (∃ n, x = .image p n) ∨ x.Foreign p := by
        intro x hx
        obtain ⟨m, hm⟩ := Option.ne_none_iff_exists'.mp hx
        rcases Option.or_eq_some_iff.mp hm with hm | ⟨-, hm⟩
        · exact .inl (toldStack_image x (by rw [hm]; exact Option.some_ne_none m))
        · exact .inr (hforeign x (by rw [hm]; exact Option.some_ne_none m))
      apply ((execCommit_leaf hu2 hk2 _ _).and
        (execCommit_tally hP htold hlay2 hu2 hk2 hi2 hroles hsz sz)).bind
      rintro _ w3 ⟨hleaf3, h3, hnull3⟩
      rw [ensures_pure]
      rintro argc sp ⟨⟩
      refine ⟨h3.weaken fun x m hx ↦ ?_, hnull3, fun hmax ↦ ?_⟩
      · obtain ⟨q, n, hq, rfl⟩ := hforeign x (by rw [hx]; exact Option.some_ne_none m)
        have hrole : (Owner.user q n : Owner P O).swap p = .user q n := if_neg hq
        rw [hrole]
        exact hx
      have hwritten := hr hmax
      by_cases hfits : argRoom img.argv ≤ pgsize
      · rw [if_pos hfits] at hwritten
        obtain ⟨heq, hmem2⟩ := hwritten
        cases heq
        have hpa3 : w3.leaf (.user p) (stackbase / pgsize) =
            some ⟨pa, ⟨true, true, false, true, false⟩⟩ := by rw [hleaf3, hpa2]
        have hmem3 : w3.mem pa = w2.mem pa := by
          have hstack : toldStack p (w2.mem pa)
              ((Owner.user p (stackbase / pgsize) : Owner P O).swap p) = some (w2.mem pa) := by
            simp [toldStack, Owner.swap]
          obtain ⟨pa', howns, hmem⟩ := h3.kept _ _ (Option.or_eq_some_iff.mpr (.inl hstack))
          have howner := (w3.owns_entry (t := .user p) trivial htop).symm.trans howns
          rw [hpa3] at howner
          cases howner
          exact hmem
        refine ⟨rfl, hfits, _, argStack_of_pieces hfits fun x hx ↦ ?_⟩
        exact holds_argPieces hpa3 rfl (hmem3.trans hmem2) hfits hx
      · rw [if_neg hfits] at hwritten
        cases hwritten

end

end Xv6K210.Vm
