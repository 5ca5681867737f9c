import Mathlib.Data.Fintype.Prod
import Xv6K210.Base.RefCount
import Xv6K210.Vm.Spaces

/-!
# References to mapping objects and files

The reference count of an object is the number of slots that point to it, and the
reference count of a file is the number of descriptors and objects that do. While a routine runs
it may hold references that no slot has yet, or owe some: the ledger says how many.
-/

namespace Xv6K210.Vm

open Xv6K210.Base Prog Function

variable {P O F : Type}

/-- The object that a slot points to. -/
def World.vmaObj (w : World P O F) (h : P × Fin nvma) : Option O :=
  ((w.proc h.1).vmas h.2).bind (·.object)

/-- The file that a descriptor points to. -/
def World.fdFile (w : World P O F) (h : P × Fin nofile) : Option F := (w.proc h.1).ofile h.2

/-- The file that an object points to. -/
def World.objFile (w : World P O F) (o : O) : Option F := (w.obj o).bind (·.file)

/-- The counts are exact, but for `d` references to objects and `g` references to files that are
counted and not yet held. -/
structure Ledger [Fintype P] [Fintype O] [DecidableEq O] [DecidableEq F] (d : O → Int)
    (g : F → Int) (w : World P O F) : Prop where
  counted : ∀ o x, w.obj o = some x → (x.refcnt : Int) = refs w.vmaObj o + d o
  pos : ∀ o x, w.obj o = some x → 0 < x.refcnt
  gone : ∀ o, w.obj o = none → (refs w.vmaObj o : Int) + d o = 0
  file : ∀ f, ((w.file f).ref : Int) = refs w.fdFile f + refs w.objFile f + g f

/-- A process without mappings and open files. -/
structure Idle (w : World P O F) (p : P) : Prop where
  vmas : ∀ i, (w.proc p).vmas i = none
  ofile : ∀ fd, (w.proc p).ofile fd = none

/-- Slots, descriptors, files and the objects up to their pages are the same. -/
structure Silent (w w' : World P O F) : Prop where
  vmas : ∀ p, (w'.proc p).vmas = (w.proc p).vmas
  ofile : ∀ p, (w'.proc p).ofile = (w.proc p).ofile
  obj : ∀ o, (w'.obj o).map MmapObject.head = (w.obj o).map MmapObject.head
  file : w'.file = w.file

/-- Nothing happens to the records. -/
theorem Silent.refl (w : World P O F) : Silent w w :=
  ⟨fun _ ↦ rfl, fun _ ↦ rfl, fun _ ↦ rfl, rfl⟩

/-- Silent steps compose. -/
theorem Silent.trans {w w' w'' : World P O F} (h : Silent w w') (h' : Silent w' w'') :
    Silent w w'' := by
  constructor
  · intro p
    rw [h'.vmas, h.vmas]
  · intro p
    rw [h'.ofile, h.ofile]
  · intro o
    rw [h'.obj, h.obj]
  · rw [h'.file, h.file]

/-- A step that keeps the records is silent. -/
theorem Core.silent {w w' : World P O F} (h : Core w w') : Silent w w' :=
  ⟨fun p ↦ by rw [h.proc], fun p ↦ by rw [h.proc], h.obj, h.file⟩

/-- A step on one table is silent. -/
theorem At.silent {t : Tbl P} {w w' : World P O F} (h : At t w w') : Silent w w' :=
  ⟨fun p ↦ by rw [h.proc], fun p ↦ by rw [h.proc], h.obj, h.file⟩

/-- A silent step keeps an idle process. -/
theorem Silent.idle {w w' : World P O F} {p : P} (h : Silent w w') (hp : Idle w p) :
    Idle w' p := by
  constructor
  · intro i
    rw [h.vmas, hp.vmas]
  · intro fd
    rw [h.ofile, hp.ofile]

/-- An object that is there before is there afterwards, the same but for its pages. -/
theorem Silent.obj_some {w w' : World P O F} (h : Silent w w') {o : O} {x' : MmapObject F}
    (hx : w'.obj o = some x') : ∃ x, w.obj o = some x ∧ x'.head = x.head := by
  have ho := h.obj o
  rw [hx] at ho
  cases hw : w.obj o with
  | none =>
    rw [hw] at ho
    cases ho
  | some x =>
    rw [hw] at ho
    exact ⟨x, rfl, Option.some.inj ho⟩

/-- The objects of the mappings stay. -/
theorem Silent.vmaObj {w w' : World P O F} (h : Silent w w') : w'.vmaObj = w.vmaObj := by
  ext x : 1
  unfold World.vmaObj
  rw [h.vmas]

/-- The files of the descriptors stay. -/
theorem Silent.fdFile {w w' : World P O F} (h : Silent w w') : w'.fdFile = w.fdFile := by
  ext x : 1
  unfold World.fdFile
  rw [h.ofile]

/-- The files of the objects stay. -/
theorem Silent.objFile {w w' : World P O F} (h : Silent w w') : w'.objFile = w.objFile := by
  ext o : 1
  unfold World.objFile
  have ho := h.obj o
  cases hw : w.obj o with
  | none =>
    rw [hw, Option.map_none, Option.map_eq_none_iff] at ho
    rw [ho]
  | some x =>
    rw [hw, Option.map_some, Option.map_eq_some_iff] at ho
    obtain ⟨x', hx', hhead⟩ := ho
    rw [hx']
    exact congrArg (·.2.2) hhead

section

variable [Fintype P] [Fintype O] [DecidableEq O] [DecidableEq F] {d : O → Int} {g : F → Int}

/-- A silent step keeps the ledger. -/
theorem Ledger.silent {w w' : World P O F} (h : Ledger d g w) (h' : Silent w w') :
    Ledger d g w' := by
  constructor
  · intro o x' hx'
    obtain ⟨x, hx, hhead⟩ := h'.obj_some hx'
    have hcnt : x'.refcnt = x.refcnt := congrArg (·.1) hhead
    rw [h'.vmaObj, hcnt, h.counted o x hx]
  · intro o x' hx'
    obtain ⟨x, hx, hhead⟩ := h'.obj_some hx'
    have hcnt : x'.refcnt = x.refcnt := congrArg (·.1) hhead
    rw [hcnt]
    exact h.pos o x hx
  · intro o ho
    rw [h'.vmaObj]
    apply h.gone o
    have := h'.obj o
    rw [ho] at this
    exact Option.map_eq_none_iff.mp this.symm
  · intro f
    rw [h'.file, h'.fdFile, h'.objFile, h.file]

/-- The ledger may be written differently. -/
theorem Ledger.congr {w : World P O F} {d' : O → Int} {g' : F → Int} (h : Ledger d g w)
    (hd : ∀ o, d' o = d o) (hg : ∀ f, g' f = g f) : Ledger d' g' w := by
  rw [show d' = d from funext hd, show g' = g from funext hg]
  exact h

end

/-! ### Files -/

section

variable [Fintype P] [Fintype O] [DecidableEq O] [DecidableEq F] {d : O → Int} {g : F → Int}

/-- `filedup` takes one reference. -/
theorem filedup_ledger {w : World P O F} (f : F) (h : Ledger d g w) :
    Ensures (filedup f) w fun _ w' ↦ Ledger d (fun x ↦ g x + holds (some f) x) w' ∧
      w'.proc = w.proc ∧ w'.obj = w.obj := by
  unfold filedup
  simp only [ensures_bind, ensures_get, ensures_ite, ensures_set]
  refine ⟨fun _ ↦ ensures_halt, fun _ ↦ ⟨⟨h.counted, h.pos, h.gone, ?_⟩, trivial, trivial⟩⟩
  intro f'
  change ((update w.file f { w.file f with ref := (w.file f).ref + 1 } f').ref : Int) =
    refs w.fdFile f' + refs w.objFile f' + (g f' + holds (some f) f')
  have hf := h.file f'
  by_cases hff : f = f'
  · subst hff
    rw [update_self, holds_self]
    push_cast
    omega
  · rw [update_of_ne (Ne.symm hff), holds_of_ne hff]
    omega

/-- `fileclose` gives one reference back. -/
theorem fileclose_ledger {w : World P O F} (f : F) (h : Ledger d g w) :
    Ensures (fileclose f) w fun _ w' ↦ Ledger d (fun x ↦ g x - holds (some f) x) w' ∧
      w'.proc = w.proc ∧ w'.obj = w.obj := by
  have hset : ∀ x : File, (x.ref : Int) = (w.file f).ref - 1 →
      Ledger d (fun x ↦ g x - holds (some f) x)
        { w with file := update w.file f x } := by
    intro x hx
    refine ⟨h.counted, h.pos, h.gone, ?_⟩
    intro f'
    change ((update w.file f x f').ref : Int) =
      refs w.fdFile f' + refs w.objFile f' + (g f' - holds (some f) f')
    have hf := h.file f'
    by_cases hff : f = f'
    · subst hff
      rw [update_self, holds_self]
      omega
    · rw [update_of_ne (Ne.symm hff), holds_of_ne hff]
      omega
  unfold fileclose
  simp only [ensures_bind, ensures_get, ensures_ite, ensures_set]
  refine ⟨fun _ ↦ ensures_halt, fun hpos ↦ ⟨fun _ ↦ ⟨hset _ ?_, trivial, trivial⟩,
    fun _ ↦ ⟨hset _ ?_, trivial, trivial⟩⟩⟩
  · dsimp only
    omega
  · dsimp only
    omega

end

/-! ### Slots and objects -/

section

variable [DecidableEq P] [Fintype P] [Fintype O] [DecidableEq O] [DecidableEq F] {d : O → Int}
  {g : F → Int}

omit [Fintype P] [Fintype O] [DecidableEq O] [DecidableEq F] in
private theorem setVma_vmaObj (w : World P O F) (p : P) (i : Fin nvma) (v : Option (Vma O)) :
    World.vmaObj { w with
      proc := update w.proc p
        { w.proc p with vmas := update (w.proc p).vmas i v } } =
      update w.vmaObj (p, i) (v.bind (·.object)) := by
  ext x : 1
  obtain ⟨q, j⟩ := x
  unfold World.vmaObj
  dsimp only
  by_cases hq : q = p
  · subst hq
    rw [update_self]
    dsimp only
    by_cases hj : j = i
    · subst hj
      rw [update_self, update_self]
    · rw [update_of_ne hj, update_of_ne (by simp [hj])]
  · rw [update_of_ne hq, update_of_ne (by simp [hq])]

/-- The reference of the old mapping is handed out, that of the new one is taken. -/
theorem setVma_ledger {w : World P O F} (p : P) (i : Fin nvma) (v : Option (Vma O))
    (h : Ledger d g w) :
    Ensures (setVma p i v) w fun _ w' ↦
      Ledger (fun o ↦ d o + holds (w.vmaObj (p, i)) o - holds (v.bind (·.object)) o) g w' ∧
        w'.obj = w.obj ∧ w'.file = w.file ∧
        w'.proc = update w.proc p
          { w.proc p with vmas := update (w.proc p).vmas i v } := by
  unfold setVma
  rw [ensures_modify]
  refine ⟨⟨?_, h.pos, ?_, ?_⟩, rfl, rfl, rfl⟩
  · intro o x hx
    rw [setVma_vmaObj, refs_update]
    have := h.counted o x hx
    omega
  · intro o ho
    rw [setVma_vmaObj, refs_update]
    have := h.gone o ho
    omega
  · intro f
    have hfd : World.fdFile { w with
        proc := update w.proc p
          { w.proc p with vmas := update (w.proc p).vmas i v } } = w.fdFile := by
      ext x : 1
      unfold World.fdFile
      dsimp only
      by_cases hq : x.1 = p
      · rw [hq, update_self]
      · rw [update_of_ne hq]
    rw [hfd]
    exact h.file f

section

omit [DecidableEq P]

/-- An object is stored: its count, and the references that its files have. -/
theorem setObj_ledger {w : World P O F} {o : O} {x : Option (MmapObject F)} (h : Ledger d g w)
    {k : Int} (hsome : ∀ y, x = some y → 0 < y.refcnt ∧ (y.refcnt : Int) = refs w.vmaObj o + k)
    (hnone : x = none → refs w.vmaObj o + k = 0) :
    Ensures (setObj o x) w fun _ w' ↦
      Ledger (update d o k)
        (fun f ↦ g f + holds (w.objFile o) f - holds (x.bind (·.file)) f) w' ∧
        w'.proc = w.proc ∧ w'.file = w.file ∧ w'.obj = update w.obj o x := by
  unfold setObj
  rw [ensures_modify]
  refine ⟨⟨?_, ?_, ?_, ?_⟩, rfl, rfl, rfl⟩
  · intro o' y hy
    dsimp only at hy
    rw [update_apply] at hy ⊢
    split_ifs at hy ⊢ with ho
    · rw [ho]
      exact (hsome y hy).2
    · exact h.counted o' y hy
  · intro o' y hy
    dsimp only at hy
    rw [update_apply] at hy
    split_ifs at hy
    · exact (hsome y hy).1
    · exact h.pos o' y hy
  · intro o' ho'
    dsimp only at ho'
    rw [update_apply] at ho' ⊢
    split_ifs at ho' ⊢ with ho
    · rw [ho]
      exact hnone ho'
    · exact h.gone o' ho'
  · intro f
    have hobj : World.objFile { w with obj := update w.obj o x } =
        update w.objFile o (x.bind (·.file)) := by
      ext o' : 1
      unfold World.objFile
      dsimp only
      rw [update_apply, update_apply]
      split_ifs <;> rfl
    rw [hobj, refs_update]
    have := h.file f
    change ((w.file f).ref : Int) = refs w.fdFile f + _ + _
    omega

/-- `mmap_object_get` counts a reference. -/
theorem mmapObjectGet_ledger {w : World P O F} (o : Option O) (h : Ledger d g w) :
    Ensures (mmapObjectGet o) w fun _ w' ↦ Ledger (fun o' ↦ d o' + holds o o') g w' ∧
      w'.proc = w.proc := by
  unfold mmapObjectGet
  rw [ensures_bind, ensures_get]
  cases o with
  | none => exact ensures_halt
  | some o =>
    cases hx : w.obj o with
    | none =>
      simp only [Option.bind_some, hx]
      exact ensures_halt
    | some x =>
      simp only [Option.bind_some, hx]
      rw [ensures_ite]
      refine ⟨fun _ ↦ ensures_halt, fun hpos ↦ ?_⟩
      have hcnt := h.counted o x hx
      have hfile : w.objFile o = x.file := by
        unfold World.objFile
        rw [hx]
        rfl
      refine (setObj_ledger (k := d o + 1) h ?_ ?_).mono ?_
      · rintro y ⟨⟩
        refine ⟨Nat.succ_pos _, ?_⟩
        push_cast
        omega
      · intro hnone
        cases hnone
      · rintro _ w' ⟨h', hproc, -, -⟩
        refine ⟨h'.congr ?_ ?_, hproc⟩
        · intro o'
          by_cases ho : o = o'
          · subst ho
            rw [update_self, holds_self]
          · rw [update_of_ne (Ne.symm ho), holds_of_ne ho]
            omega
        · intro f
          rw [hfile]
          change g f = g f + holds x.file f - holds x.file f
          omega

/-- `mmap_object_put` gives a reference back. With the last one the object goes, and its file. -/
theorem mmapObjectPut_ledger {w : World P O F} (o : O) (h : Ledger d g w) :
    Ensures (mmapObjectPut o) w fun _ w' ↦
      Ledger (fun o' ↦ d o' - holds (some o) o') g w' ∧ w'.proc = w.proc := by
  unfold mmapObjectPut
  rw [ensures_bind, ensures_get]
  cases hx : w.obj o with
  | none => exact ensures_halt
  | some x =>
    have hcnt := h.counted o x hx
    have hfile : w.objFile o = x.file := by
      unfold World.objFile
      rw [hx]
      rfl
    have hd : ∀ o', update d o (d o - 1) o' = d o' - holds (some o) o' := by
      intro o'
      by_cases ho : o = o'
      · subst ho
        rw [update_self, holds_self]
      · rw [update_of_ne (Ne.symm ho), holds_of_ne ho]
        omega
    rw [ensures_ite, ensures_ite]
    refine ⟨fun _ ↦ ensures_halt, fun hpos ↦ ⟨fun hone ↦ ?_, fun hmore ↦ ?_⟩⟩
    · have hclose : Ensures (mmapObjectDestroy x) w fun _ w' ↦
          Ledger d (fun f ↦ g f - holds x.file f) w' ∧ w'.proc = w.proc ∧ w'.obj = w.obj := by
        unfold mmapObjectDestroy
        have hfiles : Ensures (forEach fileclose x.file.toList) w fun _ w' ↦
            Ledger d (fun f ↦ g f - holds x.file f) w' ∧ w'.proc = w.proc ∧ w'.obj = w.obj := by
          cases x.file with
          | none =>
            rw [Option.toList_none, forEach, ensures_pure]
            refine ⟨h.congr (fun _ ↦ rfl) ?_, rfl, rfl⟩
            intro f
            rw [holds_none, sub_zero]
          | some f =>
            rw [Option.toList_some, forEach, ensures_bind]
            apply (fileclose_ledger f h).mono
            intro _ w1 h1
            rw [forEach, ensures_pure]
            exact h1
        apply hfiles.bind
        rintro _ w1 ⟨h1, hproc1, hobj1⟩
        apply (kfreePages_quiet w1 _).bind
        intro _ w2 h2
        apply (kfreePages_quiet w2 _).mono
        intro _ w3 h3
        have h23 := h2.trans h3
        refine ⟨h1.silent h23.core.silent, ?_, ?_⟩
        · rw [h23.core.proc, hproc1]
        · rw [h23.obj, hobj1]
      apply hclose.bind
      rintro _ w1 ⟨h1, hproc1, hobj1⟩
      have hsame : w1.vmaObj = w.vmaObj := by
        unfold World.vmaObj
        rw [hproc1]
      refine (setObj_ledger (k := d o - 1) h1 ?_ ?_).mono ?_
      · intro y hy
        cases hy
      · intro _
        rw [hsame]
        omega
      · rintro _ w2 ⟨h2, hproc2, -, -⟩
        refine ⟨h2.congr (fun o' ↦ (hd o').symm) ?_, by rw [hproc2, hproc1]⟩
        intro f
        have hfile1 : w1.objFile o = x.file := by
          unfold World.objFile
          rw [hobj1, hx]
          rfl
        rw [hfile1, Option.bind_none, holds_none]
        omega
    · refine (setObj_ledger (k := d o - 1) h ?_ ?_).mono ?_
      · rintro y ⟨⟩
        dsimp only
        constructor
        · omega
        · omega
      · intro hnone
        cases hnone
      · rintro _ w1 ⟨h1, hproc1, -, -⟩
        refine ⟨h1.congr (fun o' ↦ (hd o').symm) ?_, hproc1⟩
        intro f
        rw [hfile]
        change g f = g f + holds x.file f - holds x.file f
        omega

private theorem putIfAny_ledger {w : World P O F} (o : Option O) (h : Ledger d g w) :
    Ensures (putIfAny o) w fun _ w' ↦ Ledger (fun o' ↦ d o' - holds o o') g w' ∧
      w'.proc = w.proc := by
  cases o with
  | none =>
    rw [putIfAny, ensures_pure]
    refine ⟨h.congr ?_ fun _ ↦ rfl, rfl⟩
    intro o'
    rw [holds_none, sub_zero]
  | some o => exact mmapObjectPut_ledger o h

end

end

/-! ### Unmapping -/

section

variable [DecidableEq P] [Fintype P] [Fintype O] [DecidableEq O] [DecidableEq F] {d : O → Int}
  {g : F → Int}

omit [DecidableEq P] [Fintype P] [Fintype O] [DecidableEq O] [DecidableEq F] in
/-- The object of a slot. -/
theorem vmaObj_of_eq {w : World P O F} {p : P} {i : Fin nvma} {v : Option (Vma O)}
    (h : (w.proc p).vmas i = v) : w.vmaObj (p, i) = v.bind (·.object) := by
  unfold World.vmaObj
  rw [h]

/-- A mapping is replaced by one of the same object. -/
theorem setVma_ledger_same {w : World P O F} {p : P} {i : Fin nvma} {v v' : Vma O}
    (h : Ledger d g w) (hv : (w.proc p).vmas i = some v) (ho : v'.object = v.object) :
    Ensures (setVma p i (some v')) w fun _ w' ↦ Ledger d g w' ∧
      w'.proc = update w.proc p
        { w.proc p with vmas := update (w.proc p).vmas i (some v') } := by
  apply (setVma_ledger p i (some v') h).mono
  rintro _ w' ⟨h', -, -, hproc⟩
  refine ⟨h'.congr ?_ fun _ ↦ rfl, hproc⟩
  intro o
  rw [vmaObj_of_eq hv, Option.bind_some, Option.bind_some, ho]
  omega

omit [DecidableEq P] [Fintype P] [Fintype O] [DecidableEq O] [DecidableEq F] in
/-- A free slot stays free after a cut, unless the cut takes it. -/
theorem Cut.free {addr fin : Nat} {vmas vmas' : Fin nvma → Option (Vma O)}
    {split split' : Option (Fin nvma)} {i : Fin nvma} {ns : List Nat}
    (h : Cut addr fin vmas split i vmas' split' ns)
    (hsplit : ∀ j, split = some j → vmas j = none) : ∀ j, split' = some j → vmas' j = none := by
  -- the slot of the mapping is not the free one
  have hne : ∀ {j : Fin nvma} {v : Vma O} (x : Option (Vma O)), vmas i = some v →
      split = some j → update vmas i x j = none := by
    intro j v x hv hj
    rw [update_of_ne, hsplit j hj]
    rintro rfl
    rw [hsplit j hj] at hv
    cases hv
  intro j hj
  cases h with
  | skip _ => exact hsplit j hj
  | whole v hv => exact hne none hv hj
  | head v hv => exact hne _ hv hj
  | tail v hv => exact hne _ hv hj
  | middle => cases hj

private theorem unmapSlot_ledger {w : World P O F} {p : P} (addr fin : Nat)
    {split : Option (Fin nvma)}
    (i : Fin nvma) (hsplit : ∀ j, split = some j → (w.proc p).vmas j = none)
    (h : Ledger d g w) :
    Ensures (unmapSlot p addr fin split i) w fun split' w' ↦
      Ledger d g w' ∧ ∀ j, split' = some j → (w'.proc p).vmas j = none := by
  have hcut : Ensures (unmapSlot p addr fin split i) w fun split' w' ↦
      ∀ j, split' = some j → (w'.proc p).vmas j = none := by
    apply (unmapSlot_spec w p addr fin split i).mono
    rintro split' w' ⟨vmas, ns, hcut, hs⟩
    rw [hs.vmas]
    exact hcut.free hsplit
  refine Ensures.and ?_ hcut
  unfold unmapSlot
  rw [ensures_bind, ensures_get]
  cases hv : (w.proc p).vmas i with
  | none => exact ensures_pure.mpr h
  | some v =>
    rw [ensures_ite, ensures_pure]
    refine ⟨fun _ ↦ ?_, fun _ ↦ h⟩
    apply (vmaUnmapPages_spec w p _ _).bind
    intro _ w1 h1
    have hl1 := h.silent h1.core.silent
    have hv1 : (w1.proc p).vmas i = some v := by rw [h1.core.proc, hv]
    simp only [ensures_ite, ensures_bind, ensures_pure]
    refine ⟨fun _ ↦ ?_, fun _ ↦ ⟨fun _ ↦ ?_, fun _ ↦ ⟨fun _ ↦ ?_, fun _ ↦ ?_⟩⟩⟩
    · apply (setVma_ledger p i none hl1).mono
      rintro _ w2 ⟨hl2, -, -, -⟩
      apply (putIfAny_ledger v.object hl2).mono
      rintro _ w3 ⟨hl3, -⟩
      apply hl3.congr _ fun _ ↦ rfl
      intro o
      rw [vmaObj_of_eq hv1, Option.bind_some, Option.bind_none, holds_none]
      omega
    · exact (setVma_ledger_same hl1 hv1 (by rfl)).mono fun _ _ h ↦ h.1
    · exact (setVma_ledger_same hl1 hv1 (by rfl)).mono fun _ _ h ↦ h.1
    · cases hj : split with
      | none => exact ensures_halt
      | some j =>
        have hjnone : (w1.proc p).vmas j = none := by rw [h1.core.proc, hsplit j hj]
        simp only [ensures_bind, ensures_pure]
        refine (setVma_ledger p j _ hl1).mono ?_
        rintro _ w2 ⟨hl2, -, -, hproc2⟩
        apply (mmapObjectGet_ledger v.object hl2).mono
        rintro _ w3 ⟨hl3, hproc3⟩
        have hl3' : Ledger d g w3 := by
          apply hl3.congr _ fun _ ↦ rfl
          intro o
          rw [vmaObj_of_eq hjnone, Option.bind_none, holds_none, Option.bind_some]
          dsimp only
          omega
        have hv3 : (w3.proc p).vmas i = some v := by
          rw [hproc3, hproc2, update_self]
          dsimp only
          rw [update_of_ne, hv1]
          rintro rfl
          rw [hjnone] at hv1
          cases hv1
        exact (setVma_ledger_same hl3' hv3 (by rfl)).mono fun _ _ h ↦ h.1

private theorem unmapSlots_ledger {p : P} (addr fin : Nat) (is : List (Fin nvma)) {w : World P O F}
    {split : Option (Fin nvma)} (hsplit : ∀ j, split = some j → (w.proc p).vmas j = none)
    (h : Ledger d g w) :
    Ensures (unmapSlots p addr fin split is) w fun _ w' ↦ Ledger d g w' := by
  induction is generalizing w split with
  | nil => exact ensures_pure.mpr h
  | cons i is ih =>
    rw [unmapSlots, ensures_bind]
    apply (unmapSlot_ledger addr fin i hsplit h).mono
    rintro split' w1 ⟨h1, hsplit1⟩
    exact ih hsplit1 h1

/-- `vma_unmap` keeps the counts, whatever it cuts. -/
theorem vmaUnmap_ledger {w : World P O F} (p : P) (addr length : Nat) (h : Ledger d g w) :
    Ensures (vmaUnmap p addr length) w fun _ w' ↦ Ledger d g w' := by
  unfold vmaUnmap
  simp only [ensures_bind, ensures_get, ensures_ite, ensures_pure]
  refine ⟨fun _ ↦ h, fun _ ↦ ⟨fun _ ↦ h, fun _ ↦ ⟨fun _ ↦ h, fun _ ↦ ⟨fun _ ↦ h, fun _ ↦
    ⟨fun _ ↦ h, fun _ ↦ ?_⟩⟩⟩⟩⟩
  apply (writebackSlots_quiet w p _ _).mono
  intro r w1 h1
  have hl1 := h.silent h1.core.silent
  cases r with
  | some i => exact ensures_pure.mpr hl1
  | none =>
    simp only [ensures_bind, ensures_pure]
    apply unmapSlots_ledger _ _ _ _ hl1
    intro j hj
    rw [h1.core.proc]
    split_ifs at hj
    exact vmaFindFree_none hj

/-- A round of `vma_destroy_all`. -/
theorem destroySlot_ledger {w : World P O F} (p : P) (i : Fin nvma) (h : Ledger d g w) :
    Ensures (destroySlot p i) w fun _ w' ↦ Ledger d g w' ∧
      w'.proc = update w.proc p
        { w.proc p with vmas := update (w.proc p).vmas i none } := by
  unfold destroySlot
  rw [ensures_bind, ensures_get]
  cases hv : (w.proc p).vmas i with
  | none =>
    rw [ensures_pure, ← hv, update_eq_self, update_eq_self]
    exact ⟨h, rfl⟩
  | some v =>
    have hwb : Ensures (doIf (w.pt (.user p)).root.isSome do
        let _ ← mmapFileWritebackRange p v v.start v.fin) w fun _ w' ↦ Core w w' := by
      simp only [ensures_doIf, ensures_bind, ensures_pure]
      refine ⟨fun _ ↦ ?_, fun _ ↦ .refl w⟩
      exact (mmapFileWritebackRange_quiet w p v _ _).mono fun _ _ h ↦ h.core
    apply hwb.bind
    intro _ w1 h1
    have hun : Ensures (doIf ((w.pt (.user p)).root.isSome ∧ (w.pt (.kern p)).root.isSome)
        (vmaUnmapPages p v.start v.fin)) w1 fun _ w' ↦ Core w1 w' := by
      rw [ensures_doIf]
      refine ⟨fun _ ↦ ?_, fun _ ↦ .refl w1⟩
      exact (vmaUnmapPages_spec w1 p _ _).mono fun _ _ h ↦ h.core
    apply hun.bind
    intro _ w2 h2
    have h12 := h1.trans h2
    apply (putIfAny_ledger v.object (h.silent h12.silent)).bind
    rintro _ w3 ⟨hl3, hproc3⟩
    have hp3 : w3.proc = w.proc := by rw [hproc3, h12.proc]
    apply (setVma_ledger p i none hl3).mono
    rintro _ w4 ⟨hl4, -, -, hproc4⟩
    refine ⟨hl4.congr ?_ fun _ ↦ rfl, by rw [hproc4, hp3]⟩
    intro o
    have hv3 : (w3.proc p).vmas i = some v := by rw [hp3, hv]
    rw [vmaObj_of_eq hv3, Option.bind_none, holds_none, Option.bind_some]
    omega

/-- `vma_destroy_all` keeps the counts and leaves the process without mappings. -/
theorem vmaDestroyAll_ledger {w : World P O F} (p : P) (h : Ledger d g w) :
    Ensures (vmaDestroyAll p) w fun _ w' ↦ Ledger d g w' ∧
      w'.proc = update w.proc p { w.proc p with vmas := fun _ ↦ none } := by
  refine (ensures_forEach (fun (left : List (Fin nvma)) w' ↦ Ledger d g w' ∧
    ∃ vmas, w'.proc = update w.proc p { w.proc p with vmas := vmas } ∧
      ∀ i, i ∈ left ∨ vmas i = none) ?_ ⟨h, _, (update_eq_self p w.proc).symm,
        fun i ↦ .inl (List.mem_finRange i)⟩).mono ?_
  · rintro i left w1 ⟨h1, vmas, hproc1, hdone⟩
    apply (destroySlot_ledger p i h1).mono
    rintro _ w2 ⟨h2, hproc2⟩
    refine ⟨h2, update vmas i none, ?_, ?_⟩
    · rw [hproc2, hproc1]
      simp
    · intro j
      by_cases hji : j = i
      · right
        rw [hji, update_self]
      · rw [update_of_ne hji]
        rcases hdone j with hleft | hnone
        · exact .inl ((List.mem_cons.mp hleft).resolve_left hji)
        · exact .inr hnone
  · rintro _ w1 ⟨h1, vmas, hproc, hdone⟩
    refine ⟨h1, ?_⟩
    rw [hproc, show vmas = fun _ ↦ none from funext fun i ↦ (hdone i).resolve_left (by simp)]

end

end Xv6K210.Vm
