import Xv6K210.Vm.Ledger

/-!
# The lifetime of mapping objects

Every call keeps the counts of objects and files exact, and a slot of the process
table that no process lives in has no mappings and no open files.
-/

namespace Xv6K210.Vm

open Xv6K210.Base Prog Function

variable {P O F : Type} [DecidableEq P] [Fintype P] [Fintype O] [DecidableEq O] [DecidableEq F]
  {d : O → Int} {g : F → Int}

/-! ### Mmap -/

omit [DecidableEq P] in
/-- `mmap_object_create`: the new object counts a reference that no slot has yet. -/
theorem mmapObjectCreate_ledger {w : World P O F} (type : VmaType) (file : Option F)
    (flags size : Nat) (h : Ledger d g w) :
    Ensures (mmapObjectCreate type file flags size) w fun r w' ↦
      Ledger (fun o ↦ d o + holds r o) g w' ∧ w'.proc = w.proc := by
  have hnone : ∀ {w1 : World P O F}, Quiet w w1 →
      Ledger (fun o ↦ d o + holds (none : Option O) o) g w1 ∧ w1.proc = w.proc := by
    intro w1 h1
    refine ⟨(h.silent h1.core.silent).congr ?_ fun _ ↦ rfl, h1.core.proc⟩
    intro o
    rw [holds_none, add_zero]
  -- the object is stored, with the references to its file that were taken for it
  have hset : ∀ {w1 : World P O F} {o : O} (x : MmapObject F), w.obj o = none → x.refcnt = 1 →
      Ledger d (fun f ↦ g f + holds x.file f) w1 → w1.proc = w.proc → w1.obj = w.obj →
      Ensures (do
        setObj o (some x)
        pure (some o)) w1 fun r w' ↦
          Ledger (fun o ↦ d o + holds r o) g w' ∧ w'.proc = w.proc := by
    intro w1 o x ho hx h1 hproc1 hobj1
    have hgone := h1.gone o (by rw [hobj1, ho])
    have hfile : w1.objFile o = none := by
      unfold World.objFile
      rw [hobj1, ho]
      rfl
    refine (setObj_ledger (k := d o + 1) h1 ?_ ?_).bind ?_
    · rintro y ⟨⟩
      rw [hx]
      constructor
      · omega
      · omega
    · intro hnone
      cases hnone
    · rintro _ w2 ⟨h2, hproc2, -, -⟩
      rw [ensures_pure]
      refine ⟨h2.congr ?_ ?_, by rw [hproc2, hproc1]⟩
      · intro o'
        by_cases hoo : o = o'
        · subst hoo
          rw [update_self, holds_self]
        · rw [update_of_ne (Ne.symm hoo), holds_of_ne hoo, add_zero]
      · intro f
        rw [hfile, holds_none, Option.bind_some]
        omega
  have halloc : Ensures mmapObjectAlloc w fun r w' ↦
      Quiet w w' ∧ ∀ o, r = some o → w.obj o = none := by
    apply (mmapObjectAlloc_quiet w).and
    unfold mmapObjectAlloc
    rw [ensures_bind, ensures_get]
    split
    · simp only [ensures_bind, ensures_set, ensures_pure]
      intro o ho
      split_ifs at ho with hfree
      cases ho
      exact Option.isNone_iff_eq_none.mp hfree
    · simp only [ensures_bind, ensures_set, ensures_pure]
      intro o ho
      cases ho
    · rw [ensures_pure]
      intro o ho
      cases ho
  have hg : ∀ f, g f = g f + holds (none : Option F) f := by
    intro f
    rw [holds_none, add_zero]
  unfold mmapObjectCreate
  apply halloc.bind
  rintro r w1 ⟨h1, hfree⟩
  cases r with
  | none => exact ensures_pure.mpr (hnone h1)
  | some o =>
    have ho := hfree o rfl
    have hl1 := h.silent h1.core.silent
    have hdup : ∀ {w2 : World P O F} (f : F), Quiet w w2 →
        Ensures (filedup f) w2 fun _ w' ↦ Ledger d (fun f' ↦ g f' + holds (some f) f') w' ∧
          w'.proc = w.proc ∧ w'.obj = w.obj := by
      intro w2 f h2
      apply (filedup_ledger f (h.silent h2.core.silent)).mono
      rintro _ w3 ⟨h3, hproc3, hobj3⟩
      exact ⟨h3, by rw [hproc3, h2.core.proc], by rw [hobj3, h2.obj]⟩
    cases type with
    | file =>
      cases file with
      | none => exact ensures_halt
      | some f =>
        apply (hdup f h1).bind
        rintro _ w2 ⟨h2, hproc2, hobj2⟩
        exact hset _ ho rfl h2 hproc2 hobj2
    | anon =>
      have hanon : ∀ {w2 : World P O F} (l : Option (List (Nat × Nat))), Quiet w w2 →
          Ensures (do
            setObj o (some ⟨1, .anon, none, l, none⟩)
            pure (some o)) w2 fun r w' ↦
              Ledger (fun o ↦ d o + holds r o) g w' ∧ w'.proc = w.proc := by
        intro w2 l h2
        have hl2 : Ledger d (fun f ↦ g f + holds (none : Option F) f) w2 :=
          (h.silent h2.core.silent).congr (fun _ ↦ rfl) fun f ↦ (hg f).symm
        exact hset ⟨1, .anon, none, l, none⟩ ho rfl hl2 h2.core.proc h2.obj
      simp only [ensures_ite]
      constructor
      · intro _
        apply (kmalloc_quiet w1).bind
        intro b w2 h2
        rw [ensures_ite, ensures_pure]
        exact ⟨fun _ ↦ hanon _ (h1.trans h2), fun _ ↦ hnone (h1.trans h2)⟩
      · intro _
        exact hanon _ h1
    | kbuf =>
      apply (kbufCreate_quiet w1 size).bind
      intro r w2 h2
      have h12 := h1.trans h2
      cases r with
      | none => exact ensures_pure.mpr (hnone h12)
      | some pas =>
        cases file with
        | none => exact ensures_halt
        | some f =>
          apply (hdup f h12).bind
          rintro _ w3 ⟨h3, hproc3, hobj3⟩
          exact hset _ ho rfl h3 hproc3 hobj3

/-- `mmap_map_create`: the slot takes the reference. -/
theorem mmapMapCreate_ledger {w : World P O F} (p : P) (addr length prot flags : Nat)
    (type : VmaType) (object : Option O) (offset : Nat) (h : Ledger d g w) :
    Ensures (mmapMapCreate p addr length prot flags type object offset) w fun r w' ↦
      Ledger (fun o ↦ if r.isSome then d o - holds object o else d o) g w' := by
  have hnone : Ledger (fun o ↦ if (none : Option Nat).isSome then d o - holds object o else d o)
      g w := h.congr (fun _ ↦ by simp) fun _ ↦ rfl
  unfold mmapMapCreate
  simp only [ensures_bind, ensures_get, ensures_ite, ensures_pure]
  refine ⟨fun _ ↦ hnone, fun _ ↦ ⟨fun _ ↦ hnone, fun _ ↦ ⟨fun _ ↦ hnone, fun _ ↦
    ⟨fun _ ↦ hnone, fun _ ↦ ?_⟩⟩⟩⟩
  cases hfree : vmaFindFree (w.proc p).vmas with
  | none => exact ensures_pure.mpr hnone
  | some i =>
    simp only [ensures_bind, ensures_ite, ensures_pure]
    refine ⟨fun _ ↦ hnone, fun _ ↦ ?_⟩
    refine (setVma_ledger p i _ h).mono ?_
    rintro _ w' ⟨h', -, -, -⟩
    apply h'.congr _ fun _ ↦ rfl
    intro o
    rw [vmaObj_of_eq (vmaFindFree_none hfree), Option.bind_none, holds_none, Option.isSome_some,
      if_pos rfl, Option.bind_some]
    change d o - holds object o = d o + 0 - holds object o
    omega

private theorem mapObject_ledger {w : World P O F} (p : P) (addr length prot flags : Nat)
    (type : VmaType) (file : Option F) (offset : Nat) (h : Ledger d g w) :
    Ensures (do
      match ← mmapObjectCreate type file flags 0 with
      | none => pure none
      | some o =>
        match ← mmapMapCreate p addr length prot flags type (some o) offset with
        | none =>
          mmapObjectPut o
          pure none
        | some start => pure (some start)) w fun _ w' ↦ Ledger d g w' := by
  apply (mmapObjectCreate_ledger type file flags 0 h).bind
  rintro r w1 ⟨h1, -⟩
  cases r with
  | none =>
    rw [ensures_pure]
    apply h1.congr _ fun _ ↦ rfl
    intro o
    rw [holds_none, add_zero]
  | some o =>
    apply (mmapMapCreate_ledger p addr length prot flags type (some o) offset h1).bind
    intro r w2 h2
    cases r with
    | none =>
      simp only [ensures_bind, ensures_pure]
      apply (mmapObjectPut_ledger o h2).mono
      rintro _ w3 ⟨h3, -⟩
      apply h3.congr _ fun _ ↦ rfl
      intro o'
      rw [Option.isSome_none, if_neg (by simp)]
      omega
    | some start =>
      rw [ensures_pure]
      apply h2.congr _ fun _ ↦ rfl
      intro o'
      rw [Option.isSome_some, if_pos rfl]
      omega

/-- `mmap_populate` marks a slot of the same object. -/
theorem mmapPopulate_ledger {w : World P O F} {p : P} {i : Fin nvma} {v : Vma O}
    (hv : (w.proc p).vmas i = some v) (h : Ledger d g w) :
    Ensures (mmapPopulate p i v) w fun _ w' ↦ Ledger d g w' := by
  unfold mmapPopulate
  rw [ensures_ite, ensures_pure]
  refine ⟨fun _ ↦ h, fun _ ↦ ?_⟩
  refine (ensures_stopAt (fun _ w' ↦ Core w w') (fun _ _ w' ↦ Core w w') ?_ (Core.refl w)).bind ?_
  · intro n ns w1 h1
    apply (populatePage_spec w1 p v n).mono
    rintro b w2 (⟨rfl, -, h2⟩ | ⟨rfl, _, h2⟩ | ⟨rfl, h2⟩)
    · exact h1.trans h2.core
    · exact h1.trans h2.core
    · exact h1.trans h2.core
  · intro r w1 h1
    cases r with
    | none =>
      simp only [ensures_bind, ensures_pure]
      have hv1 : (w1.proc p).vmas i = some v := by rw [h1.proc, hv]
      exact (setVma_ledger_same (h.silent h1.silent) hv1 (by rfl)).mono fun _ _ h ↦ h.1
    | some n =>
      obtain ⟨_, -, h1⟩ := h1
      simp only [ensures_bind, ensures_pure]
      apply (vmaUnmapPages_spec w1 p _ _).mono
      intro _ w2 h2
      exact h.silent (h1.trans h2.core).silent

private theorem mapDeviceObject_ledger {w : World P O F} {p : P} {i : Fin nvma} {v : Vma O}
    (start length : Nat) (f : F) (offset : Nat) (populate : Bool)
    (hv : (w.proc p).vmas i = some v) (hnone : v.object = none) (h : Ledger d g w) :
    Ensures (mapDeviceObject p i v start length f offset populate) w fun _ w' ↦
      Ledger d g w' := by
  have hfail : ∀ {w1 : World P O F}, Ledger d g w1 →
      Ensures (do
        let _ ← vmaUnmap p start length
        pure none : Kern P O F (Option Nat)) w1 fun _ w' ↦ Ledger d g w' := by
    intro w1 h1
    simp only [ensures_bind, ensures_pure]
    exact vmaUnmap_ledger p start length h1
  unfold mapDeviceObject
  refine (setVma_ledger_same h hv (by rfl)).bind ?_
  rintro _ w1 ⟨h1, hproc1⟩
  apply (mmapObjectCreate_ledger .kbuf (some f) _ _ h1).bind
  rintro r w2 ⟨h2, hproc2⟩
  cases r with
  | none =>
    apply hfail
    apply h2.congr _ fun _ ↦ rfl
    intro o
    rw [holds_none, add_zero]
  | some o =>
    have hv2 : (w2.proc p).vmas i = some { v with populate := populate } := by
      rw [hproc2, hproc1, update_self]
      dsimp only
      rw [update_self]
    refine (setVma_ledger p i _ h2).bind ?_
    rintro _ w3 ⟨h3, -, -, hproc3⟩
    have h3' : Ledger d g w3 := by
      apply h3.congr _ fun _ ↦ rfl
      intro o'
      rw [vmaObj_of_eq hv2, Option.bind_some, Option.bind_some, hnone, holds_none]
      dsimp only
      omega
    have hv3 : (w3.proc p).vmas i =
        some { v with populate := populate, object := some o } := by
      rw [hproc3, update_self]
      dsimp only
      rw [update_self]
    rw [ensures_ite, ensures_pure]
    refine ⟨fun _ ↦ ?_, fun _ ↦ h3'⟩
    apply (mmapPopulate_ledger hv3 h3').bind
    intro b w4 h4
    rw [ensures_ite, ensures_pure]
    exact ⟨fun _ ↦ h4, fun _ ↦ hfail h4⟩

private theorem vmaMapDevice_ledger {w : World P O F} {p : P} (addr length prot flags : Nat) (f : F)
    (dev : DevMmap) (offset : Nat) (hs : SpaceAt w p) (h : Ledger d g w) :
    Ensures (vmaMapDevice p addr length prot flags f dev offset) w fun _ w' ↦
      Ledger d g w' := by
  have hfail : ∀ {w1 : World P O F} (start : Nat), Ledger d g w1 →
      Ensures (do
        let _ ← vmaUnmap p start length
        pure none : Kern P O F (Option Nat)) w1 fun _ w' ↦ Ledger d g w' := by
    intro w1 start h1
    simp only [ensures_bind, ensures_pure]
    exact vmaUnmap_ledger p start length h1
  unfold vmaMapDevice
  simp only [ensures_bind, ensures_get, ensures_ite, ensures_pure]
  refine ⟨fun _ ↦ h, fun _ ↦ ⟨fun _ ↦ h, fun _ ↦ ⟨fun _ ↦ h, fun _ ↦ ?_⟩⟩⟩
  apply ((mmapMapCreate_spec addr length prot flags .kbuf none offset hs).and
    (mmapMapCreate_ledger p addr length prot flags .kbuf none offset h)).mono
  rintro r w1 ⟨hspec, hl1⟩
  have h1 : Ledger d g w1 := by
    apply hl1.congr _ fun _ ↦ rfl
    intro o
    rw [holds_none, sub_zero, ite_self]
  rcases hspec with ⟨rfl, -⟩ | ⟨i, start, rfl, -, -, -, hslots, hs1⟩
  · exact ensures_pure.mpr h1
  · simp only [ensures_bind, ensures_get]
    split
    · exact hfail start h1
    · rename_i j hj
      have hi : (w1.proc p).vmas i =
          some (.fresh .kbuf start length prot flags none offset) := by
        rw [hslots.vmas, update_self]
      obtain rfl := hs1.find hi hj
      rw [hi]
      simp only [ensures_ite]
      refine ⟨fun _ ↦ hfail start h1, fun _ ↦ ?_⟩
      split
      · exact hfail start h1
      · exact mapDeviceObject_ledger start length f offset _ hi rfl h1

private theorem sysMmap_ledger {w : World P O F} {p : P} (addr : Nat) (length : Int)
    (prot flags : Nat)
    (fd offset : Int) (hs : SpaceAt w p) (h : Ledger d g w) :
    Ensures (sysMmap p addr length prot flags fd offset) w fun _ w' ↦ Ledger d g w' := by
  unfold sysMmap
  simp only [ensures_bind, ensures_get, ensures_ite, ensures_pure]
  refine ⟨fun _ ↦ h, fun _ ↦ ⟨fun _ ↦ ⟨fun _ ↦ h, fun _ ↦ ?_⟩, fun _ ↦ ?_⟩⟩
  · unfold vmaMapAnon
    rw [ensures_ite, ensures_pure]
    exact ⟨fun _ ↦ h, fun _ ↦ mapObject_ledger p addr _ prot flags .anon none 0 h⟩
  · split
    · split
      · exact ensures_pure.mpr h
      · rename_i f _
        split
        · exact vmaMapDevice_ledger _ _ _ _ _ _ _ hs h
        · have hmap := mapObject_ledger p addr length.toNat prot flags .file (some f)
            offset.toNat h
          unfold vmaMapFile
          simp only [ensures_bind, ensures_get, ensures_ite, ensures_pure]
          refine ⟨fun _ ↦ h, fun _ ↦ ⟨fun _ ↦ h, fun _ ↦ ⟨fun _ ↦ h, fun _ ↦ ⟨fun _ ↦ h,
            fun _ ↦ ?_⟩⟩⟩⟩
          rw [ensures_bind] at hmap
          exact hmap
    · exact ensures_pure.mpr h

omit [Fintype P] [Fintype O] [DecidableEq O] [DecidableEq F] in
/-- A change of a process that is neither one of its mappings nor one of its files. -/
theorem setProc_silent (w : World P O F) (p : P) {f : Proc P O F → Proc P O F}
    (hf : ∀ q, (f q).vmas = q.vmas ∧ (f q).ofile = q.ofile) :
    Ensures (setProc p f) w fun _ w' ↦ Silent w w' := by
  unfold setProc
  rw [ensures_modify]
  refine ⟨?_, ?_, fun _ ↦ rfl, rfl⟩
  · intro q
    dsimp only
    by_cases hq : q = p
    · rw [hq, update_self, (hf _).1]
    · rw [update_of_ne hq]
  · intro q
    dsimp only
    by_cases hq : q = p
    · rw [hq, update_self, (hf _).2]
    · rw [update_of_ne hq]

omit [DecidableEq P] [Fintype P] [Fintype O] [DecidableEq O] [DecidableEq F] in
private theorem setHeld_silent (w : World P O F) (b : Bool) :
    Ensures (setHeld b) w fun _ w' ↦ Silent w w' ∧ w'.proc = w.proc := by
  unfold setHeld
  rw [ensures_modify]
  exact ⟨⟨fun _ ↦ rfl, fun _ ↦ rfl, fun _ ↦ rfl, rfl⟩, rfl⟩

omit [Fintype P] [Fintype O] [DecidableEq F] in
/-- A fault keeps the records. -/
theorem vmResolveFault_core (w : World P O F) (p : P) (address : Nat) (access : Access) :
    Ensures (vmResolveFault p address access) w fun _ w' ↦ Core w w' := by
  apply (vmResolveFault_spec w p address access).mono
  rintro _ w' ⟨hf, -⟩
  obtain h | h | ⟨e, -, h⟩ := hf.eff
  · exact h.core
  · exact h.core
  · exact h.core

omit [Fintype P] [Fintype O] [DecidableEq O] [DecidableEq F] in
private theorem sysSbrk_silent (w : World P O F) (p : P) (n : Int) :
    Ensures (sysSbrk p n) w fun _ w' ↦ Silent w w' := by
  have hset : ∀ (w1 : World P O F) (sz : Nat),
      Ensures (setProc p fun q ↦ { q with sz := sz }) w1 fun _ w' ↦ Silent w1 w' :=
    fun w1 sz ↦ setProc_silent w1 p fun _ ↦ ⟨rfl, rfl⟩
  unfold sysSbrk
  simp only [ensures_bind, ensures_get, ensures_ite, ensures_pure]
  refine ⟨fun _ ↦ ⟨fun _ ↦ .refl w, fun _ ↦ hset w _⟩, fun _ ↦ ⟨fun _ ↦ .refl w, fun _ ↦ ?_⟩⟩
  apply (uvmdealloc_spec w (.kern p) _ _ false).mono
  intro _ w1 h1
  apply (uvmdealloc_spec w1 (.user p) _ _ true).mono
  intro sz w2 h2
  apply (hset w2 sz).mono
  intro _ w3 h3
  exact (h1.2.core.trans h2.2.core).silent.trans h3

/-! ### Slots of the process table -/

omit [Fintype P] [Fintype O] [DecidableEq O] [DecidableEq F] in
private theorem freeprocvm_silent (b : Boot P) (w : World P O F) (p : P) :
    Ensures (freeprocvm b p) w fun _ w' ↦ Silent w w' := by
  unfold freeprocvm
  rw [ensures_bind, ensures_get, ensures_bind]
  apply (kfreePages_quiet w _).mono
  intro _ w1 h1
  have huser : Ensures (doIf (w.pt (.user p)).root.isSome
      (procFreepagetable (.user p) (w.proc p).sz)) w1 fun _ w' ↦ Silent w1 w' := by
    rw [ensures_doIf]
    refine ⟨fun _ ↦ ?_, fun _ ↦ .refl w1⟩
    exact (procFreepagetable_at w1 _ _).mono fun _ _ h ↦ h.silent
  apply huser.bind
  intro _ w2 h2
  have hkern : Ensures (doIf (w.pt (.kern p)).root.isSome
      (procFreekpagetable b (.kern p) (w.proc p).kstack (w.proc p).sz)) w2
      fun _ w' ↦ Silent w2 w' := by
    rw [ensures_doIf]
    refine ⟨fun _ ↦ ?_, fun _ ↦ .refl w2⟩
    exact (procFreekpagetable_at b w2 _ _ _).mono fun _ _ h ↦ h.silent
  apply hkern.bind
  intro _ w3 h3
  refine (setProc_silent w3 p ?_).mono ?_
  · intro q
    exact ⟨rfl, rfl⟩
  · intro _ w4 h4
    exact ((h1.core.silent.trans h2).trans h3).trans h4

/-- `freeproc` of a process that has closed its files. -/
theorem freeproc_ledger {w : World P O F} (b : Boot P) (p : P) (h : Ledger d g w)
    (hfiles : ∀ fd, (w.proc p).ofile fd = none) :
    Ensures (freeproc b p) w fun _ w' ↦ Ledger d g w' ∧ Idle w' p := by
  unfold freeproc
  apply (vmaDestroyAll_ledger p h).bind
  rintro _ w1 ⟨h1, hproc1⟩
  have hidle1 : Idle w1 p := by
    constructor
    · intro i
      rw [hproc1, update_self]
    · intro fd
      rw [hproc1, update_self]
      exact hfiles fd
  apply (freeprocvm_silent b w1 p).bind
  intro _ w2 h2
  refine (setProc_silent w2 p ?_).mono ?_
  · intro q
    exact ⟨rfl, rfl⟩
  · intro _ w3 h3
    have h13 := h2.trans h3
    exact ⟨h1.silent h13, h13.idle hidle1⟩

/-- `allocproc`: the new process has no mappings and no files. -/
theorem allocproc_ledger {w : World P O F} (b : Boot P) (c : P) (h : Ledger d g w)
    (hc : Idle w c) :
    Ensures (allocproc b c) w fun _ w' ↦ Ledger d g w' ∧ Idle w' c := by
  have hfail : ∀ {w1 : World P O F}, Silent w w1 →
      Ensures (freeproc b c >>= fun _ ↦ pure false) w1 fun _ w' ↦ Ledger d g w' ∧ Idle w' c := by
    intro w1 h1
    simp only [ensures_bind, ensures_pure]
    exact freeproc_ledger b c (h.silent h1) (h1.idle hc).ofile
  unfold allocproc
  apply (kallocPage_quiet w).bind
  intro r w1 h1
  have hs1 := h1.core.silent
  cases r with
  | none =>
    rw [ensures_pure]
    exact ⟨h.silent hs1, hs1.idle hc⟩
  | some tf =>
    refine (setProc_silent w1 c ?_).bind ?_
    · intro q
      exact ⟨rfl, rfl⟩
    intro _ w2 h2
    have hs2 := hs1.trans h2
    apply (procPagetable_spec b w2 (.user c) tf).bind
    rintro ok w3 ⟨h3, -⟩
    have hs3 := hs2.trans h3.silent
    rw [ensures_ite]
    refine ⟨fun _ ↦ ?_, fun _ ↦ hfail hs3⟩
    apply (ukvminit_spec b w3 (.kern c)).bind
    rintro ok w4 ⟨h4, -⟩
    have hs4 := hs3.trans h4.silent
    rw [ensures_ite]
    refine ⟨fun _ ↦ ?_, fun _ ↦ hfail hs4⟩
    apply (kallocPage_quiet w4).bind
    intro r w5 h5
    have hs5 := hs4.trans h5.core.silent
    cases r with
    | none => exact hfail hs5
    | some pa =>
      apply (mappages_at w5 (.kern c) kstackPage pa _).bind
      intro ok w6 h6
      have hs6 := hs5.trans h6.silent
      rw [ensures_ite]
      constructor
      · intro _
        simp only [ensures_bind, ensures_pure]
        have hidle6 := hs6.idle hc
        have hempty : (fun _ ↦ none) = (w6.proc c).vmas := by
          ext i : 1
          rw [hidle6.vmas]
        have hset : Ensures (setProc c fun q ↦
            { q with kstack := kstackPage, vmas := fun _ ↦ none }) w6
            fun _ w' ↦ Silent w6 w' := by
          unfold setProc
          rw [ensures_modify, hempty]
          have := setProc_silent w6 c (f := fun q ↦ { q with kstack := kstackPage })
            fun q ↦ ⟨rfl, rfl⟩
          unfold setProc at this
          rw [ensures_modify] at this
          exact this
        apply hset.mono
        intro _ w7 h7
        have hs7 := hs6.trans h7
        exact ⟨h.silent hs7, hs7.idle hc⟩
      · intro _
        apply (kfreePage_quiet w6 pa).bind
        intro _ w7 h7
        apply (ukvmfree_at w7 (.kern c)).bind
        intro _ w8 h8
        exact hfail ((hs6.trans h7.core.silent).trans h8.silent)

/-! ### Fork -/

section

omit [Fintype P] [Fintype O] [DecidableEq O] [DecidableEq F]

private theorem uvmcopyRange_silent (w : World P O F) (old new : Tbl P) (start fin : Nat) :
    Ensures (uvmcopyRange old new start fin) w fun _ w' ↦ Silent w w' := by
  unfold uvmcopyRange
  refine (ensures_stopAt (fun _ w' ↦ Core w w') (fun _ _ w' ↦ Core w w') ?_ (.refl w)).bind ?_
  · intro n left w1 h1
    apply (uvmcopyPage_spec w1 old new n).mono
    rintro ok w2 (⟨rfl, -, h2⟩ | ⟨e, -, ⟨rfl, h2, -⟩ | ⟨rfl, h2⟩⟩)
    · exact h1.trans h2.core
    · exact h1.trans h2.core
    · exact h1.trans h2.core
  · intro r w1 h1
    cases r with
    | none => exact ensures_pure.mpr h1.silent
    | some n =>
      obtain ⟨_, -, h1⟩ := h1
      simp only [ensures_bind, ensures_pure]
      apply (uvmunmap_spec w1 new _ true).mono
      intro _ w2 h2
      exact (h1.trans h2.core).silent

private theorem forkPages_silent (w : World P O F) (p c : P) (i : Fin nvma) :
    Ensures (forkPages p c i) w fun _ w' ↦ Silent w w' := by
  unfold forkPages
  rw [ensures_bind, ensures_get]
  split
  · exact ensures_pure.mpr (.refl w)
  · rename_i v _
    refine (ensures_stopAt (fun _ w' ↦ Core w w') (fun _ _ w' ↦ Core w w') ?_ (.refl w)).bind ?_
    · intro n left w1 h1
      apply (forkPage_spec w1 p c v n).mono
      rintro ok w2 (⟨rfl, -, h2⟩ | ⟨e, L, e', -, -, -, ⟨rfl, h2⟩ | ⟨rfl, h2⟩⟩)
      · exact h1.trans h2.core
      · exact h1.trans h2.core
      · exact h1.trans h2.core
    · intro r w1 h1
      rw [ensures_pure]
      cases r with
      | none => exact h1.silent
      | some n =>
        obtain ⟨_, -, h1⟩ := h1
        exact h1.silent

end

/-- The first loop of `vma_fork`: every slot that is copied takes a reference. -/
theorem forkSlots_ledger {p c : P} (is : List (Fin nvma)) (hnodup : is.Nodup) {w : World P O F}
    (hnone : ∀ i ∈ is, (w.proc c).vmas i = none) (h : Ledger d g w) :
    Ensures (forEach (forkSlot p c) is) w fun _ w' ↦
      Ledger d g w' ∧ (w'.proc c).ofile = (w.proc c).ofile := by
  induction is generalizing w with
  | nil => exact ensures_pure.mpr ⟨h, rfl⟩
  | cons i is ih =>
    obtain ⟨hi, hnodup⟩ := List.nodup_cons.mp hnodup
    have hslot : Ensures (forkSlot p c i) w fun _ w' ↦ Ledger d g w' ∧
        (w'.proc c).ofile = (w.proc c).ofile ∧ ∀ j ∈ is, (w'.proc c).vmas j = none := by
      have hrest : ∀ j ∈ is, (w.proc c).vmas j = none :=
        fun j hj ↦ hnone j (List.mem_cons_of_mem i hj)
      unfold forkSlot
      rw [ensures_bind, ensures_get]
      split
      · exact ensures_pure.mpr ⟨h, rfl, hrest⟩
      · rename_i v _
        apply (setVma_ledger c i (some v) h).bind
        rintro _ w1 ⟨h1, -, -, hproc1⟩
        apply (mmapObjectGet_ledger v.object h1).mono
        rintro _ w2 ⟨h2, hproc2⟩
        refine ⟨h2.congr ?_ fun _ ↦ rfl, ?_, ?_⟩
        · intro o
          rw [vmaObj_of_eq (hnone i List.mem_cons_self), Option.bind_none, holds_none,
            Option.bind_some]
          omega
        · rw [hproc2, hproc1, update_self]
        · intro j hj
          rw [hproc2, hproc1, update_self]
          dsimp only
          rw [update_of_ne, hrest j hj]
          rintro rfl
          exact hi hj
    rw [forEach, ensures_bind]
    apply hslot.mono
    rintro _ w1 ⟨h1, hofile1, hnone1⟩
    apply (ih hnodup hnone1 h1).mono
    rintro _ w2 ⟨h2, hofile2⟩
    exact ⟨h2, by rw [hofile2, hofile1]⟩

private theorem vmaFork_ledger {p c : P} {w : World P O F} (hc : Idle w c) (h : Ledger d g w) :
    Ensures (vmaFork p c) w fun _ w' ↦ Ledger d g w' ∧ ∀ fd, (w'.proc c).ofile fd = none := by
  unfold vmaFork
  apply (forkSlots_ledger slots (List.nodup_finRange nvma) (fun i _ ↦ hc.vmas i) h).bind
  rintro _ w1 ⟨h1, hofile1⟩
  refine (ensures_stopAt (fun _ w' ↦ Silent w1 w') (fun _ _ w' ↦ Silent w1 w') ?_
    (.refl w1)).bind ?_
  · intro i left w2 h2
    apply (forkPages_silent w2 p c i).mono
    intro ok w3 h3
    cases ok with
    | true => exact h2.trans h3
    | false => exact h2.trans h3
  · intro r w2 h2
    have hfiles : ∀ {w3 : World P O F}, Silent w1 w3 → ∀ fd, (w3.proc c).ofile fd = none := by
      intro w3 h3 fd
      rw [h3.ofile, hofile1, hc.ofile]
    cases r with
    | none => exact ensures_pure.mpr ⟨h1.silent h2, hfiles h2⟩
    | some i =>
      obtain ⟨_, -, h2⟩ := h2
      simp only [ensures_bind, ensures_pure]
      apply (vmaDestroyAll_ledger c (h1.silent h2)).mono
      rintro _ w3 ⟨h3, hproc3⟩
      refine ⟨h3, ?_⟩
      intro fd
      rw [hproc3, update_self]
      exact hfiles h2 fd

private theorem forkCopy_ledger {p c : P} {w : World P O F} (hc : Idle w c) (h : Ledger d g w) :
    Ensures (forkCopy p c) w fun _ w' ↦ Ledger d g w' ∧ ∀ fd, (w'.proc c).ofile fd = none := by
  unfold forkCopy
  rw [ensures_bind, ensures_get, ensures_bind]
  apply (uvmcopyRange_silent w (.user p) (.user c) 0 _).mono
  intro ok w1 h1
  rw [ensures_ite, ensures_pure]
  refine ⟨fun _ ↦ ?_, fun _ ↦ ⟨h.silent h1, (h1.idle hc).ofile⟩⟩
  refine (setProc_silent w1 c ?_).bind ?_
  · intro q
    exact ⟨rfl, rfl⟩
  intro _ w2 h2
  have h12 := h1.trans h2
  apply (uvmcopyRange_silent w2 (.user p) (.user c) _ _).bind
  intro ok w3 h3
  have h13 := h12.trans h3
  rw [ensures_ite, ensures_pure]
  refine ⟨fun _ ↦ ?_, fun _ ↦ ⟨h.silent h13, (h13.idle hc).ofile⟩⟩
  apply (vmaFork_ledger (h13.idle hc) (h.silent h13)).bind
  rintro ok w4 ⟨h4, hfiles4⟩
  rw [ensures_ite, ensures_pure]
  refine ⟨fun _ ↦ ?_, fun _ ↦ ⟨h4, hfiles4⟩⟩
  have hsync : ∀ {w5 : World P O F} (ns : List Nat), Silent w4 w5 →
      Ensures (upg2ukpg (.user c) (.kern c) ns) w5 fun _ w' ↦ Silent w4 w' := by
    intro w5 ns h5
    apply (upg2ukpg_spec w5 (by simp) ns).mono
    rintro _ w6 ⟨_, h6, -⟩
    exact h5.trans h6.core.silent
  have hend : ∀ {w' : World P O F}, Silent w4 w' →
      Ledger d g w' ∧ ∀ fd, (w'.proc c).ofile fd = none := by
    intro w' h'
    refine ⟨h4.silent h', ?_⟩
    intro fd
    rw [h'.ofile, hfiles4]
  apply (hsync _ (.refl w4)).bind
  intro ok w5 h5
  rw [ensures_ite, ensures_pure]
  exact ⟨fun _ ↦ (hsync _ h5).mono fun _ _ h ↦ hend h, fun _ ↦ hend h5⟩

omit [Fintype P] [Fintype O] [DecidableEq O] [DecidableEq F] in
private theorem forkSync_core (w : World P O F) (p : P) :
    Ensures (forkSync p) w fun _ w' ↦ Core w w' := by
  have hne : Tbl.user p ≠ Tbl.kern p := by simp
  unfold forkSync uvmStackSync
  rw [ensures_bind, ensures_get, ensures_bind]
  apply (upg2ukpg_spec w hne _).mono
  rintro ok w1 ⟨_, h1, -⟩
  rw [ensures_ite]
  refine ⟨fun _ ↦ ?_, fun _ ↦ ensures_halt⟩
  apply (upg2ukpg_spec w1 hne _).bind
  rintro ok w2 ⟨_, h2, -⟩
  rw [ensures_ite, ensures_pure]
  exact ⟨fun _ ↦ h1.core.trans h2.core, fun _ ↦ ensures_halt⟩

/-! ### Descriptors -/

section

omit [Fintype P] [Fintype O] [DecidableEq O] [DecidableEq F]

private theorem setFd_fdFile {w w' : World P O F} {p : P} {fd : Fin nofile} {x : Option F}
    (h : w'.proc = update w.proc p
      { w.proc p with ofile := update (w.proc p).ofile fd x }) :
    w'.fdFile = update w.fdFile (p, fd) x := by
  ext y : 1
  obtain ⟨q, fd'⟩ := y
  unfold World.fdFile
  rw [h]
  dsimp only
  by_cases hq : q = p
  · subst hq
    rw [update_self]
    dsimp only
    by_cases hfd : fd' = fd
    · subst hfd
      rw [update_self, update_self]
    · rw [update_of_ne hfd, update_of_ne (by simp [hfd])]
  · rw [update_of_ne hq, update_of_ne (by simp [hq])]

private theorem setFd_vmaObj {w w' : World P O F} {p : P} {fd : Fin nofile} {x : Option F}
    (h : w'.proc = update w.proc p
      { w.proc p with ofile := update (w.proc p).ofile fd x }) :
    w'.vmaObj = w.vmaObj := by
  ext y : 1
  unfold World.vmaObj
  rw [h]
  by_cases hq : y.1 = p
  · rw [hq, update_self]
  · rw [update_of_ne hq]

end

/-- The reference of the old file is handed out, that of the new one is taken. -/
theorem setFd_ledger {w : World P O F} (p : P) (fd : Fin nofile) (x : Option F)
    (h : Ledger d g w) :
    Ensures (setProc p fun q ↦ { q with ofile := update q.ofile fd x }) w fun _ w' ↦
      Ledger d (fun f ↦ g f + holds (w.fdFile (p, fd)) f - holds x f) w' ∧ w'.file = w.file ∧
        w'.proc = update w.proc p
          { w.proc p with ofile := update (w.proc p).ofile fd x } := by
  unfold setProc
  rw [ensures_modify]
  refine ⟨⟨?_, h.pos, ?_, ?_⟩, rfl, rfl⟩
  · intro o y hy
    rw [setFd_vmaObj (w := w) rfl]
    exact h.counted o y hy
  · intro o ho
    rw [setFd_vmaObj (w := w) rfl]
    exact h.gone o ho
  · intro f
    rw [setFd_fdFile (w := w) rfl, refs_update]
    have := h.file f
    change ((w.file f).ref : Int) = _ + (refs w.objFile f : Int) + _
    omega

/-- The open files of the child, whose descriptors are free. -/
theorem forkFiles_ledger {p c : P} (fds : List (Fin nofile)) (hnodup : fds.Nodup)
    {w : World P O F} (hnone : ∀ fd ∈ fds, (w.proc c).ofile fd = none) (h : Ledger d g w) :
    Ensures (forEach (forkFile p c) fds) w fun _ w' ↦ Ledger d g w' := by
  induction fds generalizing w with
  | nil => exact ensures_pure.mpr h
  | cons fd fds ih =>
    obtain ⟨hfd, hnodup⟩ := List.nodup_cons.mp hnodup
    have hfile : Ensures (forkFile p c fd) w fun _ w' ↦ Ledger d g w' ∧
        ∀ fd' ∈ fds, (w'.proc c).ofile fd' = none := by
      have hrest : ∀ fd' ∈ fds, (w.proc c).ofile fd' = none :=
        fun fd' h' ↦ hnone fd' (List.mem_cons_of_mem fd h')
      unfold forkFile
      rw [ensures_bind, ensures_get]
      split
      · exact ensures_pure.mpr ⟨h, hrest⟩
      · rename_i f _
        apply (filedup_ledger f h).bind
        rintro _ w1 ⟨h1, hproc1, -⟩
        refine (setFd_ledger c fd (some f) h1).mono ?_
        rintro _ w2 ⟨h2, -, hproc2⟩
        refine ⟨h2.congr (fun _ ↦ rfl) ?_, ?_⟩
        · intro f'
          have hold : w1.fdFile (c, fd) = none := by
            unfold World.fdFile
            rw [hproc1]
            exact hnone fd List.mem_cons_self
          rw [hold, holds_none]
          omega
        · intro fd' hfd'
          rw [hproc2, update_self]
          dsimp only
          rw [update_of_ne, hproc1, hrest fd' hfd']
          rintro rfl
          exact hfd hfd'
    rw [forEach, ensures_bind]
    apply hfile.mono
    rintro _ w1 ⟨h1, hnone1⟩
    exact ih hnodup hnone1 h1

/-- `fork` keeps the counts. A child that is not alive has nothing. -/
theorem fork_ledger (b : Boot P) {p c : P} {w : World P O F} (hc : Idle w c)
    (h : Ledger d g w) :
    Ensures (fork b p c) w fun _ w' ↦ Ledger d g w' ∧
      ((w'.proc c).state ≠ .live → Idle w' c) := by
  have hheld : ∀ {w1 : World P O F} (ok : Bool), Ledger d g w1 → Idle w1 c →
      Ensures (setHeld false >>= fun _ ↦ pure ok) w1 fun _ w' ↦ Ledger d g w' ∧
        ((w'.proc c).state ≠ .live → Idle w' c) := by
    intro w1 ok h1 hc1
    simp only [ensures_bind, ensures_pure]
    apply (setHeld_silent w1 false).mono
    rintro _ w2 ⟨h2, -⟩
    exact ⟨h1.silent h2, fun _ ↦ h2.idle hc1⟩
  unfold fork
  apply (setHeld_silent w true).bind
  rintro _ w1 ⟨h1, -⟩
  apply (allocproc_ledger b c (h.silent h1) (h1.idle hc)).bind
  rintro ok w2 ⟨h2, hc2⟩
  rw [ensures_ite]
  refine ⟨fun _ ↦ ?_, fun _ ↦ hheld false h2 hc2⟩
  apply (forkCopy_ledger hc2 h2).bind
  rintro ok w3 ⟨h3, hfiles3⟩
  rw [ensures_ite]
  constructor
  · intro _
    apply (forkFiles_ledger _ (List.nodup_finRange nofile) (fun fd _ ↦ hfiles3 fd) h3).bind
    intro _ w4 h4
    have hlive : Ensures (setProc c fun q ↦ { q with state := .live, parent := some p }) w4
        fun _ w' ↦ Silent w4 w' ∧ (w'.proc c).state = .live := by
      apply (setProc_silent w4 c (by intro q; exact ⟨rfl, rfl⟩)).and
      unfold setProc
      rw [ensures_modify]
      dsimp only
      rw [update_self]
    apply hlive.bind
    rintro _ w5 ⟨h5, hlive5⟩
    apply (setHeld_silent w5 false).bind
    rintro _ w6 ⟨h6, hproc6⟩
    simp only [ensures_bind, ensures_pure]
    apply (forkSync_core w6 p).mono
    intro _ w7 h7
    refine ⟨h4.silent ((h5.trans h6).trans h7.silent), ?_⟩
    intro hdead
    rw [h7.proc, hproc6] at hdead
    exact absurd hlive5 hdead
  · intro _
    apply (forkSync_core w3 p).bind
    intro _ w4 h4
    have hfiles4 : ∀ fd, (w4.proc c).ofile fd = none := by
      intro fd
      rw [h4.proc, hfiles3]
    apply (freeproc_ledger b c (h3.silent h4.silent) hfiles4).bind
    rintro _ w5 ⟨h5, hc5⟩
    exact hheld false h5 hc5

/-- The loop of `exit` over the open files. -/
theorem exitFiles_ledger {p : P} {w : World P O F} (h : Ledger d g w) :
    Ensures (forEach (exitFile p) (List.finRange nofile)) w fun _ w' ↦
      Ledger d g w' ∧ ∀ fd, (w'.proc p).ofile fd = none := by
  refine (ensures_forEach (fun (left : List (Fin nofile)) w' ↦ Ledger d g w' ∧
    ∀ fd, fd ∈ left ∨ (w'.proc p).ofile fd = none) ?_
      ⟨h, fun fd ↦ .inl (List.mem_finRange fd)⟩).mono ?_
  · rintro fd left w1 ⟨h1, hdone⟩
    unfold exitFile
    rw [ensures_bind, ensures_get]
    split
    · rename_i hnone
      rw [ensures_pure]
      refine ⟨h1, ?_⟩
      intro fd'
      rcases hdone fd' with hleft | hclosed
      · rcases List.mem_cons.mp hleft with rfl | hleft
        · exact .inr hnone
        · exact .inl hleft
      · exact .inr hclosed
    · rename_i f hf
      apply (fileclose_ledger f h1).bind
      rintro _ w2 ⟨h2, hproc2, -⟩
      refine (setFd_ledger p fd none h2).mono ?_
      rintro _ w3 ⟨h3, -, hproc3⟩
      refine ⟨h3.congr (fun _ ↦ rfl) ?_, ?_⟩
      · intro f'
        have hold : w2.fdFile (p, fd) = some f := by
          unfold World.fdFile
          rw [hproc2]
          exact hf
        rw [hold, holds_none]
        omega
      · intro fd'
        rw [hproc3, update_self]
        dsimp only
        by_cases hfd : fd' = fd
        · right
          rw [hfd, update_self]
        · rw [update_of_ne hfd, hproc2]
          rcases hdone fd' with hleft | hclosed
          · exact .inl ((List.mem_cons.mp hleft).resolve_left hfd)
          · exact .inr hclosed
  · rintro _ w1 ⟨h1, hdone⟩
    exact ⟨h1, fun fd ↦ (hdone fd).resolve_left (by simp)⟩

/-! ### Exec -/

private theorem exec_ledger (b : Boot P) {p : P} {w : World P O F} (img : Image)
    (h : Ledger d g w) :
    Ensures (exec b p img) w fun _ w' ↦ Ledger d g w' := by
  have hfree : ∀ {w1 : World P O F} (r : Option (Nat × Nat)) (sz : Nat), Silent w w1 →
      Ensures (procFreepagetable (.image p) sz >>= fun _ ↦ pure r) w1 fun _ w' ↦
        Ledger d g w' := by
    intro w1 r sz h1
    simp only [ensures_bind, ensures_pure]
    apply (procFreepagetable_at w1 _ sz).mono
    intro _ w2 h2
    exact h.silent (h1.trans h2.silent)
  unfold exec
  rw [ensures_bind, ensures_get, ensures_bind]
  apply (elock_quiet w).mono
  intro _ w1 h1
  have hs1 := h1.core.silent
  rw [ensures_ite, ensures_pure]
  refine ⟨fun _ ↦ h.silent hs1, fun _ ↦ ?_⟩
  apply (procPagetable_spec b w1 (.image p) _).bind
  rintro ok w2 ⟨h2, hblank⟩
  have hs2 := hs1.trans h2.silent
  rw [ensures_ite, ensures_pure]
  refine ⟨fun hok ↦ ?_, fun _ ↦ h.silent hs2⟩
  have hb2 : Below (.image p) w2 0 := by
    intro n e hn he
    rw [(hblank hok).leaf n hn] at he
    cases he
  apply (loadSegs_spec (.image p) img.segs hb2).bind
  rintro ⟨loaded, sz⟩ w3 ⟨h3, hb3⟩
  have hs3 := hs2.trans h3.core.silent
  dsimp only
  rw [ensures_ite]
  refine ⟨fun _ ↦ hfree none sz hs3, fun hloaded ↦ ?_⟩
  apply (uvmStackInit_spec (hb3 (Bool.not_eq_false _ ▸ hloaded))).bind
  rintro ok w4 ⟨h4, -⟩
  have hs4 := hs3.trans h4.core.silent
  rw [ensures_ite]
  refine ⟨fun _ ↦ ?_, fun _ ↦ hfree none _ hs4⟩
  apply (execStage_spec w4 p _ _).bind
  intro _ w5 h5
  apply (execArgs_quiet w5 p img.argv).bind
  intro r w6 h6
  have hs6 := hs4.trans (h5.core.trans h6.core).silent
  cases r with
  | none =>
    simp only [ensures_bind]
    apply (execRestore_spec w6 p _ _).mono
    intro _ w7 h7
    rw [← ensures_bind]
    exact hfree none _ (hs6.trans h7.core.silent)
  | some r =>
    -- the new image: the mappings of the old one are destroyed
    unfold execCommit
    simp only [ensures_bind, ensures_modify, ensures_pure]
    apply (vmaDestroyAll_ledger p (h.silent hs6)).mono
    rintro _ w7 ⟨h7, -⟩
    refine (setProc_silent _ p ?_).mono ?_
    · intro q
      exact ⟨rfl, rfl⟩
    · intro _ w8 h8
      apply (procFreepagetable_at w8 _ _).mono
      intro _ w9 h9
      have hswap : Silent w7 { w7 with
          pt := update (update w7.pt (.user p) (w7.pt (.image p)))
            (.image p) (w7.pt (.user p)) } :=
        ⟨fun _ ↦ rfl, fun _ ↦ rfl, fun _ ↦ rfl, rfl⟩
      exact h7.silent ((hswap.trans h8).trans h9.silent)

/-! ### The invariant -/

/-- The counts are exact, and a slot in which no process lives is idle. -/
structure Books (w : World P O F) : Prop where
  ledger : Ledger (fun _ ↦ 0) (fun _ ↦ 0) w
  idle : ∀ p, (w.proc p).state ≠ .live → Idle w p

/-- The state, the mappings and the files of the processes other than `p` are the same. -/
def Others (p : P) (w w' : World P O F) : Prop :=
  ∀ q, q ≠ p → (w'.proc q).state = (w.proc q).state ∧
    (w'.proc q).vmas = (w.proc q).vmas ∧ (w'.proc q).ofile = (w.proc q).ofile

omit [DecidableEq P] [Fintype P] [Fintype O] [DecidableEq O] [DecidableEq F] in
/-- Other records stay. -/
theorem Others.of_proc {p : P} {w w' : World P O F}
    (h : ∀ q, q ≠ p → w'.proc q = w.proc q) : Others p w w' := by
  intro q hq
  rw [h q hq]
  exact ⟨rfl, rfl, rfl⟩

omit [DecidableEq P] [Fintype P] [Fintype O] [DecidableEq O] [DecidableEq F] in
/-- Steps on one record compose. -/
theorem Others.trans {p : P} {w w' w'' : World P O F} (h : Others p w w')
    (h' : Others p w' w'') : Others p w w'' := by
  intro q hq
  obtain ⟨hstate, hvmas, hofile⟩ := h q hq
  obtain ⟨hstate', hvmas', hofile'⟩ := h' q hq
  exact ⟨by rw [hstate', hstate], by rw [hvmas', hvmas], by rw [hofile', hofile]⟩

/-- A step of process `p`, which is alive or idle afterwards. -/
theorem Books.of_others {p : P} {w w' : World P O F} (h : Books w) (h' : Others p w w')
    (hl : Ledger (fun _ ↦ 0) (fun _ ↦ 0) w') (hp : (w'.proc p).state ≠ .live → Idle w' p) :
    Books w' := by
  refine ⟨hl, ?_⟩
  intro q hq
  by_cases hqp : q = p
  · rw [hqp] at hq ⊢
    exact hp hq
  · obtain ⟨hstate, hvmas, hofile⟩ := h' q hqp
    rw [hstate] at hq
    have hidle := h.idle q hq
    constructor
    · intro i
      rw [hvmas, hidle.vmas]
    · intro fd
      rw [hofile, hidle.ofile]

/-- A step of a living process on its own memory. -/
theorem Books.own {p : P} {w w' : World P O F} (h : Books w) (hp : (w.proc p).state = .live)
    (h' : Own p w w') (hl : Ledger (fun _ ↦ 0) (fun _ ↦ 0) w') : Books w' := by
  apply h.of_others (.of_proc h'.proc) hl
  intro hdead
  rw [h'.mine] at hdead
  exact absurd hp hdead

omit [DecidableEq P] in
/-- A step that changes no slot, no descriptor and no state of a process. -/
theorem Books.silent {w w' : World P O F} (h : Books w) (h' : Silent w w')
    (hstate : ∀ p, (w'.proc p).state = (w.proc p).state) : Books w' := by
  refine ⟨h.ledger.silent h', ?_⟩
  intro p hp
  rw [hstate] at hp
  exact h'.idle (h.idle p hp)

omit [DecidableEq P] in
/-- A quiet step keeps the books. -/
theorem Books.quiet {w w' : World P O F} (h : Books w) (h' : Quiet w w') : Books w' :=
  h.silent h'.core.silent fun p ↦ by rw [h'.core.proc]

private theorem userinit_books {b : Boot P} {w : World P O F} (code : Nat → UInt8) (h : Books w)
    (hunused : (w.proc b.init).state = .unused) :
    Ensures (userinit b code) w fun _ w' ↦ Books w' := by
  have hidle := h.idle b.init (by rw [hunused]; simp)
  suffices hinit : Ensures (userinit b code) w fun _ w' ↦
      Ledger (fun _ ↦ 0) (fun _ ↦ 0) w' ∧ Idle w' b.init by
    apply (hinit.and (userinit_spec b code hunused)).mono
    rintro _ w' ⟨⟨hl, hidle'⟩, honly, -⟩
    exact h.of_others (.of_proc honly.proc) hl fun _ ↦ hidle'
  have hsync : ∀ {w1 w2 : World P O F} (ns : List Nat), Silent w1 w2 →
      Ensures (upg2ukpg (.user b.init) (.kern b.init) ns) w2 fun _ w' ↦ Silent w1 w' := by
    intro w1 w2 ns h2
    apply (upg2ukpg_spec w2 (by simp) ns).mono
    rintro _ w3 ⟨_, h3, -⟩
    exact h2.trans h3.core.silent
  unfold userinit
  apply ((allocproc_ledger b b.init h.ledger hidle).and (allocproc_spec b w b.init hunused)).bind
  rintro ok w1 ⟨⟨hl1, hidle1⟩, -, hnew, -⟩
  rw [ensures_ite]
  refine ⟨fun hok ↦ ?_, fun _ ↦ ensures_halt⟩
  apply (kallocPage_quiet w1).bind
  intro r w2 h2
  cases r with
  | none => exact ensures_halt
  | some pa =>
    rw [ensures_bind, ensures_modify, ensures_bind]
    set w3 : World P O F := { w2 with mem := update w2.mem pa code }
    have h3 : Quiet w1 w3 := h2.trans (.of_eq rfl rfl rfl rfl rfl)
    clear_value w3
    apply ((mappages_at w3 (.user b.init) 0 pa _).and
      (mappages_spec w3 (.user b.init) 0 pa _)).mono
    rintro ok' w4 ⟨h4, hmap4⟩
    have hs4 := h3.core.silent.trans h4.silent
    rw [ensures_ite]
    refine ⟨fun hok' ↦ ?_, fun _ ↦ ensures_halt⟩
    obtain ⟨-, -, heff4⟩ := hmap4.resolve_right (by simp [hok'])
    have hb4 : Below (.user b.init) w4 pgsize := by
      intro n e hn he
      rw [heff4.leaf, h3.leaf, Leaves.put_apply] at he
      split_ifs at he with hc
      · rw [hc.2]
        decide
      · rw [(hnew hok).user.leaf n hn] at he
        cases he
    apply (uvmStackInit_spec hb4).bind
    rintro ok'' w5 ⟨h5, -⟩
    rw [ensures_ite]
    refine ⟨fun _ ↦ ?_, fun _ ↦ ensures_halt⟩
    refine (setProc_silent w5 b.init ?_).bind ?_
    · intro q
      exact ⟨rfl, rfl⟩
    intro _ w6 h6
    have hs6 := (hs4.trans h5.core.silent).trans h6
    apply (hsync _ hs6).bind
    intro ok7 w7 hs7
    rw [ensures_ite]
    refine ⟨fun _ ↦ ?_, fun _ ↦ ensures_halt⟩
    unfold uvmStackSync
    apply (hsync _ hs7).bind
    intro ok8 w8 hs8
    rw [ensures_ite, ensures_pure]
    exact ⟨fun _ ↦ ⟨hl1.silent hs8, hs8.idle hidle1⟩, fun _ ↦ ensures_halt⟩

/-- A file with no reference is set up, and a free descriptor gets it. -/
theorem openFile_books {w : World P O F} (p : P) (fd : Fin nofile) (f : F) (x : File)
    (h : Books w) (hp : (w.proc p).state = .live) (hfd : (w.proc p).ofile fd = none)
    (hf : (w.file f).ref = 0) :
    Ensures (openFile p fd f x) w fun _ w' ↦ Books w' := by
  unfold openFile
  rw [ensures_modify]
  have hfree := h.ledger.file f
  rw [hf] at hfree
  refine h.of_others (p := p) (.of_proc ?_) ⟨?_, h.ledger.pos, ?_, ?_⟩ ?_
  · intro q hq
    dsimp only
    rw [update_of_ne hq]
  · intro o y hy
    rw [setFd_vmaObj (w := w) rfl]
    exact h.ledger.counted o y hy
  · intro o ho
    rw [setFd_vmaObj (w := w) rfl]
    exact h.ledger.gone o ho
  · intro f'
    rw [setFd_fdFile (w := w) rfl, refs_update]
    have hold : w.fdFile (p, fd) = none := hfd
    rw [hold, holds_none]
    have hf' := h.ledger.file f'
    change ((update w.file f { x with ref := 1 } f').ref : Int) =
      _ + (refs w.objFile f' : Int) + _
    by_cases hff : f = f'
    · subst hff
      rw [update_self, holds_self]
      push_cast at hfree ⊢
      omega
    · rw [update_of_ne (Ne.symm hff), holds_of_ne hff]
      omega
  · intro hdead
    dsimp only at hdead
    rw [update_self] at hdead
    exact absurd hp hdead

/-- A descriptor of a living process changes, and afterwards a file. -/
theorem setFd_books {w : World P O F} {p : P} (fd : Fin nofile) (x : Option F)
    {y : Kern P O F Unit} (h : Books w) (hp : (w.proc p).state = .live)
    (hy : ∀ w1 : World P O F,
      Ledger (fun _ ↦ 0) (fun f ↦ 0 + holds (w.fdFile (p, fd)) f - holds x f) w1 →
        Ensures y w1 fun _ w' ↦ Ledger (fun _ ↦ 0) (fun _ ↦ 0) w' ∧ w'.proc = w1.proc) :
    Ensures (setProc p (fun q ↦ { q with ofile := update q.ofile fd x }) >>= fun _ ↦ y)
      w fun _ w' ↦ Books w' := by
  refine (setFd_ledger p fd x h.ledger).bind ?_
  rintro _ w1 ⟨h1, -, hproc1⟩
  apply (hy w1 h1).mono
  rintro _ w2 ⟨h2, hproc2⟩
  refine h.of_others (p := p) (.of_proc ?_) h2 ?_
  · intro q hq
    rw [hproc2, hproc1, update_of_ne hq]
  · intro hdead
    rw [hproc2, hproc1, update_self] at hdead
    exact absurd hp hdead

private theorem exit_books (b : Boot P) {w : World P O F} (p : P) (h : Books w) :
    Ensures (exit b p) w fun _ w' ↦ Books w' := by
  unfold exit
  rw [ensures_ite]
  refine ⟨fun _ ↦ ensures_halt, fun _ ↦ ?_⟩
  apply ((exitFiles_ledger h.ledger).and (exitFiles_spec w p _)).bind
  rintro _ w1 ⟨⟨hl1, hfiles1⟩, honly1, -⟩
  apply (vmaDestroyAll_ledger p hl1).bind
  rintro _ w2 ⟨hl2, hproc2⟩
  have hidle2 : Idle w2 p := by
    constructor
    · intro i
      rw [hproc2, update_self]
    · intro fd
      rw [hproc2, update_self]
      exact hfiles1 fd
  rw [ensures_bind, ensures_modify]
  set w3 : World P O F := { w2 with
    proc := fun q ↦
      if (w2.proc q).parent = some p then { w2.proc q with parent := some b.init }
      else w2.proc q } with hw3
  have hparent : ∀ q, (w3.proc q).state = (w2.proc q).state ∧
      (w3.proc q).vmas = (w2.proc q).vmas ∧ (w3.proc q).ofile = (w2.proc q).ofile := by
    intro q
    rw [hw3]
    dsimp only
    split_ifs
    · exact ⟨rfl, rfl, rfl⟩
    · exact ⟨rfl, rfl, rfl⟩
  have hs3 : Silent w2 w3 :=
    ⟨fun q ↦ (hparent q).2.1, fun q ↦ (hparent q).2.2, fun _ ↦ rfl, rfl⟩
  clear_value w3
  refine ((setProc_silent w3 p (by intro q; exact ⟨rfl, rfl⟩)).and
    (setProc_only w3 p _)).mono ?_
  rintro _ w4 ⟨hs4, honly4⟩
  have hs := hs3.trans hs4
  have h2 : Others p w w2 := by
    apply Others.of_proc
    intro q hq
    rw [hproc2, update_of_ne hq, honly1.proc q hq]
  have h3 : Others p w2 w3 := fun q _ ↦ hparent q
  exact h.of_others ((h2.trans h3).trans (.of_proc honly4.proc)) (hl2.silent hs)
    fun _ ↦ hs.idle hidle2

/-- `wait`: the zombie that is freed has neither mappings nor files. -/
theorem waitFor_books (b : Boot P) {p c : P} {w : World P O F} (touched : List Nat)
    (stored : Bool) (h : Books w) (hp : (w.proc p).state = .live)
    (hc : (w.proc c).state = .zombie) :
    Ensures (waitFor b p c touched stored) w fun _ w' ↦ Books w' := by
  have hpc : p ≠ c := by
    rintro rfl
    rw [hp] at hc
    cases hc
  let inv (w' : World P O F) : Prop := Books w' ∧ Idle w' c ∧ (w'.proc p).state = .live
  have hheld : ∀ {w1 : World P O F} (x : Bool), inv w1 →
      Ensures (setHeld x) w1 fun _ w' ↦ inv w' := by
    rintro w1 x ⟨h1, hidle1, hlive1⟩
    apply (setHeld_silent w1 x).mono
    rintro _ w2 ⟨h2, hproc2⟩
    refine ⟨h1.silent h2 fun q ↦ by rw [hproc2], h2.idle hidle1, ?_⟩
    rw [hproc2, hlive1]
  unfold waitFor
  apply (hheld true ⟨h, h.idle c (by rw [hc]; simp), hp⟩).bind
  rintro _ w1 ⟨h1, hidle1, hlive1⟩
  have hvm : Ensures (freeprocvm b c) w1 fun _ w' ↦ inv w' := by
    apply ((freeprocvm_silent b w1 c).and (freeprocvm_only b w1 c)).mono
    rintro _ w2 ⟨h2, honly2⟩
    refine ⟨?_, h2.idle hidle1, by rw [honly2.proc p hpc, hlive1]⟩
    exact h1.of_others (.of_proc honly2.proc) (h1.ledger.silent h2) fun _ ↦ h2.idle hidle1
  apply hvm.bind
  intro _ w2 h2
  have hfaults : Ensures (forEach (fun a ↦ do let _ ← vmResolveFault p a .write) touched) w2
      fun _ w' ↦ inv w' := by
    apply ensures_forEach (fun _ w' ↦ inv w') _ h2
    rintro a _ w3 ⟨h3, hidle3, hlive3⟩
    simp only [ensures_bind, ensures_pure]
    apply (vmResolveFault_core w3 p a .write).mono
    intro _ w4 h4
    refine ⟨h3.silent h4.silent fun q ↦ by rw [h4.proc], h4.silent.idle hidle3, ?_⟩
    rw [h4.proc, hlive3]
  apply hfaults.bind
  rintro _ w3 ⟨h3, hidle3, hlive3⟩
  have hfree : Ensures (doIf stored (freeproc b c)) w3 fun _ w' ↦ inv w' := by
    rw [ensures_doIf]
    refine ⟨fun _ ↦ ?_, fun _ ↦ ⟨h3, hidle3, hlive3⟩⟩
    apply ((freeproc_ledger b c h3.ledger hidle3.ofile).and (freeproc_only b w3 c)).mono
    rintro _ w4 ⟨⟨hl4, hidle4⟩, honly4⟩
    refine ⟨?_, hidle4, by rw [honly4.proc p hpc, hlive3]⟩
    exact h3.of_others (.of_proc honly4.proc) hl4 fun _ ↦ hidle4
  apply hfree.bind
  intro _ w4 h4
  simp only [ensures_bind, ensures_pure]
  exact (hheld false h4).mono fun _ _ h ↦ h.1

private theorem sysExec_books (b : Boot P) {p : P} {w : World P O F} (img : Image) (h : Books w)
    (hs : Spaces w) (hp : (w.proc p).state = .live) :
    Ensures (sysExec b p img) w fun _ w' ↦ Books w' := by
  have hfree : ∀ {w1 : World P O F} (pas : List Nat), Books w1 →
      Ensures (forEach kfreePage pas) w1 fun _ w' ↦ Books w' := by
    intro w1 pas h1
    exact (kfreePages_quiet w1 pas).mono fun _ _ h2 ↦ h1.quiet h2
  unfold sysExec
  apply (argvPages_quiet _ _ w).bind
  rintro ⟨fetched, pas⟩ w1 h1
  have hb1 := h.quiet h1
  have hs1 := hs.quiet h1
  have hp1 : (w1.proc p).state = .live := by rw [h1.core.proc, hp]
  dsimp only
  rw [ensures_ite]
  constructor
  · intro _
    have halive := hs1 p hp1
    apply ((exec_ledger b img hb1.ledger).and
      (exec_spec b img halive.space halive.user halive.kern)).bind
    rintro r w2 ⟨hl2, hself, -⟩
    simp only [ensures_bind, ensures_pure]
    apply hfree
    apply hb1.of_others (.of_proc hself.proc) hl2
    intro hdead
    rw [hself.state, hp1] at hdead
    exact absurd rfl hdead
  · intro _
    simp only [ensures_bind, ensures_pure]
    exact hfree pas hb1

/-- A call that changes the memory of one process. -/
theorem ensures_books_own {α : Type} {w : World P O F} {p : P} (h : Books w)
    (hp : (w.proc p).state = .live) {x : Kern P O F α}
    (hx : Ensures x w fun _ w' ↦ Own p w w' ∧ SpaceAt w' p)
    (hl : Ensures x w fun _ w' ↦ Ledger (fun _ ↦ 0) (fun _ ↦ 0) w') :
    Ensures (do let _ ← x) w fun _ w' ↦ Books w' := by
  simp only [ensures_bind, ensures_pure]
  apply (hx.and hl).mono
  rintro _ w' ⟨⟨hown, -⟩, hl'⟩
  exact h.own hp hown hl'

/-- Every call keeps the counts. -/
theorem runCall_books (b : Boot P) {w : World P O F} {call : Call P F} (h : Books w)
    (hs : Spaces w) (hen : Enabled b w call) :
    Ensures (runCall b call) w fun _ w' ↦ Books w' := by
  cases call with
  | userinit code => exact userinit_books code h hen
  | openFile p fd f x => exact openFile_books p fd f x h hen.1 hen.2.1 hen.2.2.1
  | dup p f fd =>
    apply setFd_books fd (some f) h hen.1
    intro w1 h1
    apply (filedup_ledger f h1).mono
    rintro _ w2 ⟨h2, hproc2, -⟩
    refine ⟨h2.congr (fun _ ↦ rfl) ?_, hproc2⟩
    intro f'
    have hold : w.fdFile (p, fd) = none := hen.2.1
    rw [hold, holds_none]
    omega
  | close p fd f =>
    apply setFd_books fd none h hen.1
    intro w1 h1
    apply (fileclose_ledger f h1).mono
    rintro _ w2 ⟨h2, hproc2, -⟩
    refine ⟨h2.congr (fun _ ↦ rfl) ?_, hproc2⟩
    intro f'
    have hold : w.fdFile (p, fd) = some f := hen.2
    rw [hold, holds_none]
    omega
  | mmap p addr length prot flags fd offset =>
    have hspace := (hs p hen).space
    exact ensures_books_own h hen (sysMmap_spec addr length prot flags fd offset hspace)
      (sysMmap_ledger addr length prot flags fd offset hspace h.ledger)
  | munmap p addr length =>
    apply ensures_books_own h hen (sysMunmap_spec addr length (hs p hen).space)
    unfold sysMunmap
    rw [ensures_ite, ensures_pure]
    exact ⟨fun _ ↦ h.ledger, fun _ ↦ vmaUnmap_ledger p addr _ h.ledger⟩
  | sbrk p n =>
    apply ensures_books_own h hen (sysSbrk_spec n (hs p hen).space)
    exact (sysSbrk_silent w p n).mono fun _ _ h' ↦ h.ledger.silent h'
  | fault p address access =>
    apply ensures_books_own h hen (vmResolveFault_own address access (hs p hen).space)
    exact (vmResolveFault_core w p address access).mono fun _ _ h' ↦ h.ledger.silent h'.silent
  | store p va x => exact (store_quiet w _ va x).mono fun _ _ h' ↦ h.quiet h'
  | copyout p va x => exact (store_quiet w _ va x).mono fun _ _ h' ↦ h.quiet h'
  | fork p c =>
    have hpc : p ≠ c := by
      rintro rfl
      have hlive := hen.1
      rw [hen.2] at hlive
      cases hlive
    have hidle := h.idle c (by rw [hen.2]; simp)
    change Ensures (do let _ ← fork b p c) w _
    simp only [ensures_bind, ensures_pure]
    apply ((fork_ledger b hidle h.ledger).and
      (fork_spec b hpc hen.2 (hs p hen.1).space)).mono
    rintro ok w' ⟨⟨hl, hc⟩, hpair, -⟩
    exact h.of_others (.of_proc hpair.proc) hl hc
  | exec p img =>
    change Ensures (do let _ ← sysExec b p img) w _
    simp only [ensures_bind, ensures_pure]
    exact sysExec_books b img h hs hen
  | exit p => exact exit_books b p h
  | wait p c touched stored =>
    change Ensures (do let _ ← waitFor b p c touched stored) w _
    simp only [ensures_bind, ensures_pure]
    exact waitFor_books b touched stored h hen.1 hen.2.1

/-- Each step keeps the books. -/
theorem Books.step {b : Boot P} {w w' : World P O F} {e : Event P O F} (h : Books w)
    (hs : Spaces w) (hstep : Step b w e w') : Books w' := by
  have hquiet : Quiet w { w with answers := e.answers, io := e.io, slept := false } :=
    .of_eq rfl rfl rfl rfl rfl
  exact (runCall_books b (h.quiet hquiet) (hs.quiet hquiet) hstep.1).of_ok () w' hstep.2

omit [DecidableEq P] in
/-- The books are balanced at boot. -/
theorem books_boot (data : Nat → List UInt8) : Books (World.boot data : World P O F) := by
  refine ⟨⟨?_, ?_, ?_, ?_⟩, fun _ _ ↦ ⟨fun _ ↦ rfl, fun _ ↦ rfl⟩⟩
  · intro o x hx
    cases hx
  · intro o x hx
    cases hx
  · intro o _
    have hslots : refs (World.vmaObj (World.boot data : World P O F)) o = 0 := refs_none o
    rw [hslots]
    rfl
  · intro f
    have hfds : refs (World.fdFile (World.boot data : World P O F)) f = 0 := refs_none f
    have hobjs : refs (World.objFile (World.boot data : World P O F)) f = 0 := refs_none f
    rw [hfds, hobjs]
    rfl

/-- The counts are exact after every run from the boot. -/
theorem books_of_runs {b : Boot P} {data : Nat → List UInt8} {es : List (Event P O F)}
    {w : World P O F} (h : Runs (Step b) (World.boot data) es w) : Books w := by
  suffices hboth : Books w ∧ Spaces w from hboth.1
  apply Runs.invariant (fun w ↦ Books w ∧ Spaces w) _ h
  · refine ⟨books_boot data, ?_⟩
    intro p hp
    cases hp
  · rintro w1 e w2 ⟨hbooks, hspaces⟩ hstep
    exact ⟨hbooks.step hspaces hstep, hspaces.step hstep⟩

/-- After every run from the boot, the reference count of an object is the number of slots that
point to it, it exists if and only if there is one, and the reference count of a file is the
number of descriptors that point to it and of objects that it backs. -/
theorem object_lifetime {b : Boot P} {data : Nat → List UInt8} {es : List (Event P O F)}
    {w : World P O F} (h : Runs (Step b) (World.boot data) es w) :
    (∀ o x, w.obj o = some x → x.refcnt = refs w.vmaObj o) ∧
    (∀ o, (w.obj o).isSome ↔ 0 < refs w.vmaObj o) ∧
    ∀ f, (w.file f).ref = refs w.fdFile f + refs w.objFile f := by
  have hl := (books_of_runs h).ledger
  refine ⟨?_, ?_, ?_⟩
  · intro o x hx
    have := hl.counted o x hx
    omega
  · intro o
    cases hx : w.obj o with
    | none =>
      have := hl.gone o hx
      rw [Option.isSome_none]
      constructor
      · intro hfalse
        cases hfalse
      · omega
    | some x =>
      have hcnt := hl.counted o x hx
      have hpos := hl.pos o x hx
      rw [Option.isSome_some]
      constructor
      · omega
      · intro _
        rfl
  · intro f
    have := hl.file f
    omega

/-- The first process maps 5000 bytes. -/
theorem object_lifetime_small : ∃ w : World Bool (Fin 64) Nat,
    (∃ es, Runs (Step .small) (World.boot fun _ ↦ []) es w) ∧
    ∃ o x, w.obj o = some x ∧ 0 < x.refcnt ∧ x.refcnt = refs w.vmaObj o := by
  let event (call : Call Bool Nat) (pa : Nat) : Event Bool (Fin 64) Nat :=
    ⟨call, (List.range' pa 20).map fun i ↦ some (i, Fin.ofNat 64 i), []⟩
  have hafter : ((World.boot fun _ ↦ []).after Boot.small
      [event (.userinit fun _ ↦ 0) 10, event (.mmap false 0 5000 3 0x22 (-1) 0) 30]).any
        fun w ↦ (w.obj 30).isSome := by
    decide +kernel
  obtain ⟨w, hrun, hgood⟩ := World.runs_of_after hafter
  obtain ⟨x, hx⟩ := Option.isSome_iff_exists.mp hgood
  obtain ⟨hcnt, hthere, -⟩ := object_lifetime hrun
  have hpos := (hthere 30).mp hgood
  exact ⟨w, ⟨_, hrun⟩, 30, x, hx, by rw [hcnt 30 x hx]; exact hpos, hcnt 30 x hx⟩

end Xv6K210.Vm
