import Xv6K210.Vm.Lifetime

/-!
# Open files

Sources `kernel/fs/file.c:25–102`, `kernel/syscall/sysfile.c:37–48, 163–255, 331–356`
and `kernel/ipc/pipe.c:17–51`. `open` and `pipe` with all their ways back, beside the calls of
`Process`. The outcomes of the path walk, of the open operation of a device and of the store of the
pipe's descriptors come with the call.
-/

namespace Xv6K210.Vm

open Xv6K210.Base Prog Function

variable {P O F : Type} [DecidableEq P] [DecidableEq O] [DecidableEq F]

/-! ### `open` and `pipe` -/

/-- `O_WRONLY`. -/
def oWronly : BitVec 32 := 0x001

/-- `O_RDWR`. -/
def oRdwr : BitVec 32 := 0x002

/-- `O_ACCMODE`. -/
def oAccmode : BitVec 32 := 0x003

/-- `O_CREATE`. -/
def oCreate : BitVec 32 := 0x200

/-- `O_TRUNC`. -/
def oTrunc : BitVec 32 := 0x400

/-- `O_NOFOLLOW | O_APPEND`. -/
def oOther : BitVec 32 := 0x00c

/-- `parse_access_mode`: readable and writable. -/
def parseAccessMode (flags : BitVec 32) : Option (Bool × Bool) :=
  if flags &&& oAccmode = 0 then some (true, false)
  else if flags &&& oAccmode = oWronly then some (false, true)
  else if flags &&& oAccmode = oRdwr then some (true, true)
  else none

/-- `filealloc`: the first file of the table without a reference. -/
def filealloc (ftable : List F) : Kern P O F (Option F) := do
  let w ← get
  match ftable.find? fun f ↦ (w.file f).ref = 0 with
  | none => pure none
  | some f =>
    set { w with file := update w.file f { w.file f with ref := 1 } }
    pure (some f)

/-- `p->ofile[fd] = f`. -/
def setFd (p : P) (fd : Fin nofile) (f : Option F) : Kern P O F Unit :=
  setProc p fun q ↦ { q with ofile := update q.ofile fd f }

/-- `fdalloc`: the first free descriptor of the process. -/
def fdalloc (p : P) (f : F) : Kern P O F (Option (Fin nofile)) := do
  let w ← get
  match (List.finRange nofile).find? fun fd ↦ ((w.proc p).ofile fd).isNone with
  | none => pure none
  | some fd =>
    setFd p fd (some f)
    pure (some fd)

/-- Assignments to the fields of a file other than its reference count. -/
def setFile (f : F) (g : File → File) : Kern P O F Unit :=
  modify fun w ↦ { w with
    file := update w.file f { g (w.file f) with ref := (w.file f).ref } }

/-- The entry that `create` or `ename` returns, as far as `sys_open` reads it. -/
structure Entry where
  ep : Nat
  directory : Bool
  device : Option DevMmap
  deriving DecidableEq, Repr

/-- `sys_open` behind its two allocations. -/
def openEntry (p : P) (fd : Fin nofile) (f : F) (omode : BitVec 32) (readable writable : Bool)
    (e : Entry) (opened : Bool) : Kern P O F (Option (Fin nofile)) := do
  Prog.doIf (e.directory = false ∧ omode &&& oTrunc ≠ 0)
    (modify fun w ↦ { w with data := update w.data e.ep [] })
  setFile f fun x ↦ { x with ep := e.ep, readable, writable }
  match e.device with
  | some dev =>
    setFile f fun x ↦ { x with type := .device dev }
    if opened then
      pure (some fd)
    else
      setFd p fd none
      fileclose f
      pure none
  | none =>
    setFile f fun x ↦ { x with type := .entry }
    pure (some fd)

/-- `sys_open`, with the entry that the path leads to and whether `fileopen` succeeds on a
device; no result is -1. -/
def sysOpen (ftable : List F) (p : P) (omode : BitVec 32) (entry : Option Entry) (opened : Bool) :
    Kern P O F (Option (Fin nofile)) := do
  if omode &&& ~~~(oAccmode ||| oCreate ||| oTrunc ||| oOther) ≠ 0 then
    pure none
  else
    match parseAccessMode omode, entry with
    | some (readable, writable), some e =>
      if omode &&& oCreate = 0 ∧ e.directory ∧ omode ≠ 0 then
        pure none
      else
        match ← filealloc ftable with
        | none => pure none
        | some f =>
          match ← fdalloc p f with
          | none =>
            fileclose f
            pure none
          | some fd => openEntry p fd f omode readable writable e opened
    | _, _ => pure none

/-- `pipealloc`, with whether a page is there for the pipe. -/
def pipealloc (ftable : List F) (page : Bool) : Kern P O F (Option (F × F)) := do
  match ← filealloc ftable with
  | none => pure none
  | some rf =>
    match ← filealloc ftable with
    | none =>
      fileclose rf
      pure none
    | some wf =>
      if page then
        setFile rf fun x ↦ { x with type := .pipe, readable := true, writable := false }
        setFile wf fun x ↦ { x with type := .pipe, readable := false, writable := true }
        pure (some (rf, wf))
      else
        fileclose rf
        fileclose wf
        pure none

/-- The way back of `sys_pipe`: the descriptors that were allocated, and both files. -/
def pipeUndo (p : P) (fds : List (Fin nofile)) (rf wf : F) : Kern P O F Bool := do
  Prog.forEach (fun fd ↦ setFd p fd none) fds
  fileclose rf
  fileclose wf
  pure false

/-- `sys_pipe`. The stores of the descriptors may take the faults `touched`, and fail when `stored`
is off. -/
def sysPipe (ftable : List F) (p : P) (page : Bool) (touched : List Nat) (stored : Bool) :
    Kern P O F Bool := do
  match ← pipealloc ftable page with
  | none => pure false
  | some (rf, wf) =>
    match ← fdalloc p rf with
    | none => pipeUndo p [] rf wf
    | some fd0 =>
      match ← fdalloc p wf with
      | none => pipeUndo p [fd0] rf wf
      | some fd1 =>
        Prog.forEach (fun a ↦ do let _ ← vmResolveFault p a .write) touched
        if stored then pure true
        else pipeUndo p [fd0, fd1] rf wf

/-- `sys_dup` of a descriptor, with its search for a free one; no result is -1. -/
def dupFd (p : P) (fd : Fin nofile) : Kern P O F (Option (Fin nofile)) := do
  let w ← get
  match (w.proc p).ofile fd with
  | none => pure none
  | some f =>
    match ← fdalloc p f with
    | none => pure none
    | some fd' =>
      filedup f
      pure (some fd')

/-- The calls that change who refers to a file: those of `Process`, and those with a search for a
free file or descriptor. -/
inductive FileCall (P F : Type) where
  | vm (call : Call P F)
  | sysOpen (p : P) (omode : BitVec 32) (entry : Option Entry) (opened : Bool)
  | sysPipe (p : P) (page : Bool) (touched : List Nat) (stored : Bool)
  | sysDup (p : P) (fd : Fin nofile)

/-- The routine of a call. -/
def runFileCall (b : Boot P) (ftable : List F) : FileCall P F → Kern P O F Unit
  | .vm call => runCall b call
  | .sysOpen p omode entry opened => do
    let _ ← sysOpen ftable p omode entry opened
  | .sysPipe p page touched stored => do
    let _ ← sysPipe ftable p page touched stored
  | .sysDup p fd => do
    let _ ← dupFd p fd

/-- When a process can make a call. -/
def FileEnabled (b : Boot P) (w : World P O F) : FileCall P F → Prop
  | .vm call => Enabled b w call
  | .sysOpen p _ _ _ => (w.proc p).state = .live
  | .sysPipe p _ _ _ => (w.proc p).state = .live
  | .sysDup p _ => (w.proc p).state = .live

instance (b : Boot P) (w : World P O F) (call : FileCall P F) : Decidable (FileEnabled b w call) :=
  match call with
  | .vm call => inferInstanceAs (Decidable (Enabled b w call))
  | .sysOpen _ _ _ _ => inferInstanceAs (Decidable (_ = _))
  | .sysPipe _ _ _ _ => inferInstanceAs (Decidable (_ = _))
  | .sysDup _ _ => inferInstanceAs (Decidable (_ = _))

/-- One call that returns, with the answers to its allocations and file transfers. -/
def FileStep (b : Boot P) (ftable : List F) (w : World P O F)
    (e : FileCall P F × List (Option (Nat × O)) × List Bool) (w' : World P O F) : Prop :=
  FileEnabled b w e.1 ∧
    runFileCall b ftable e.1 { w with answers := e.2.1, io := e.2.2, slept := false } =
      .ok ((), w')

/-! ### The references in the middle of a call -/

variable [Fintype P] [Fintype O]

/-- In the middle of a call of process `p`: `g` says how many references to a file are counted and
not held yet. -/
structure Midway (p : P) (g : F → Int) (w : World P O F) : Prop where
  ledger : Ledger (fun _ ↦ 0) g w
  spaces : Spaces w
  idle : ∀ q, (w.proc q).state ≠ .live → Idle w q
  live : (w.proc p).state = .live

variable {p : P} {g : F → Int} {w : World P O F}

section

omit [DecidableEq P]

/-- The references may be written differently. -/
theorem Midway.congr {g' : F → Int} (h : Midway p g w) (hg : ∀ f, g' f = g f) : Midway p g' w where
  ledger := h.ledger.congr (fun _ ↦ rfl) hg
  spaces := h.spaces
  idle := h.idle
  live := h.live

/-- Before the call nothing is owed. -/
theorem Books.midway (h : Books w) (hs : Spaces w) (hp : (w.proc p).state = .live) :
    Midway p (fun _ ↦ 0) w where
  ledger := h.ledger
  spaces := hs
  idle := h.idle
  live := hp

/-- When nothing is owed any more, the books are right. -/
theorem Midway.books (h : Midway p (fun _ ↦ 0) w) : Books w ∧ Spaces w :=
  ⟨⟨h.ledger, h.idle⟩, h.spaces⟩

/-- The table of files changes, and the count of a file with its references. -/
theorem Midway.setFile {g' : F → Int} (h : Midway p g w) {f : F} {x : File}
    (hx : (x.ref : Int) = (w.file f).ref + (g' f - g f)) (hg : ∀ f', f' ≠ f → g' f' = g f') :
    Midway p g' { w with file := update w.file f x } where
  ledger := by
    refine ⟨h.ledger.counted, h.ledger.pos, h.ledger.gone, fun f' ↦ ?_⟩
    change ((update w.file f x f').ref : Int) =
      refs w.fdFile f' + refs w.objFile f' + g' f'
    have hf := h.ledger.file f'
    by_cases hff : f' = f
    · subst hff
      rw [update_self]
      omega
    · rw [update_of_ne hff, hg f' hff]
      omega
  spaces := h.spaces.still ⟨rfl, fun _ ↦ rfl, fun _ ↦ rfl, fun _ ↦ rfl⟩ fun _ ↦ rfl
  idle := fun q hq ↦ ⟨(h.idle q hq).vmas, (h.idle q hq).ofile⟩
  live := h.live

/-- `filealloc` counts a reference that nothing holds. -/
theorem filealloc_midway (ftable : List F) (h : Midway p g w) :
    Ensures (filealloc ftable) w fun r w' ↦ Midway p (fun x ↦ g x + holds r x) w' := by
  unfold filealloc
  rw [ensures_bind, ensures_get]
  cases hfind : ftable.find? fun f ↦ (w.file f).ref = 0 with
  | none =>
    rw [ensures_pure]
    exact h.congr fun f ↦ by rw [holds_none, add_zero]
  | some f =>
    have hzero : (w.file f).ref = 0 := by simpa using List.find?_some hfind
    simp only [ensures_bind, ensures_set, ensures_pure]
    apply h.setFile
    · rw [holds_self, hzero]
      push_cast
      omega
    · intro f' hf'
      rw [holds_of_ne (fun heq ↦ hf' heq.symm), add_zero]

/-- The other fields of a file do not matter. -/
theorem setFile_midway (f : F) (k : File → File) (h : Midway p g w) :
    Ensures (setFile f k) w fun _ w' ↦ Midway p g w' ∧ w'.proc = w.proc := by
  unfold Vm.setFile
  rw [ensures_modify]
  refine ⟨h.setFile ?_ fun _ _ ↦ rfl, rfl⟩
  dsimp only
  omega

end

/-- A descriptor changes: the old reference is handed out, the new one is taken. -/
theorem setFd_midway (fd : Fin nofile) (x : Option F) (h : Midway p g w) :
    Ensures (setFd p fd x) w fun _ w' ↦
      Midway p (fun f ↦ g f + holds ((w.proc p).ofile fd) f - holds x f) w' ∧
        (w'.proc p).ofile = update (w.proc p).ofile fd x := by
  unfold setFd
  refine ((setFd_ledger p fd x h.ledger).and (setProc_spaces h.spaces p ?_)).mono ?_
  · intro q
    exact ⟨rfl, rfl, rfl⟩
  rintro _ w' ⟨⟨hl, -, hproc⟩, hs⟩
  refine ⟨⟨hl, hs, ?_, ?_⟩, ?_⟩
  · intro q hq
    rw [hproc] at hq
    by_cases hqp : q = p
    · subst hqp
      rw [update_self] at hq
      exact absurd h.live hq
    · rw [update_of_ne hqp] at hq
      have hidle := h.idle q hq
      constructor
      · intro i
        rw [hproc, update_of_ne hqp, hidle.vmas]
      · intro fd'
        rw [hproc, update_of_ne hqp, hidle.ofile]
  · rw [hproc, update_self]
    exact h.live
  · rw [hproc, update_self]

/-- `fdalloc` takes over the reference when it finds a descriptor. -/
theorem fdalloc_midway (f : F) (h : Midway p g w) :
    Ensures (fdalloc p f) w fun r w' ↦
      match r with
      | none => Midway p g w' ∧ (w'.proc p).ofile = (w.proc p).ofile
      | some fd => Midway p (fun x ↦ g x - holds (some f) x) w' ∧ (w.proc p).ofile fd = none ∧
          (w'.proc p).ofile = update (w.proc p).ofile fd (some f) := by
  unfold fdalloc
  rw [ensures_bind, ensures_get]
  cases hfind : (List.finRange nofile).find? fun fd ↦ ((w.proc p).ofile fd).isNone with
  | none =>
    rw [ensures_pure]
    exact ⟨h, rfl⟩
  | some fd =>
    have hfree : (w.proc p).ofile fd = none := by simpa using List.find?_some hfind
    simp only [ensures_bind, ensures_pure]
    refine (setFd_midway fd (some f) h).mono ?_
    rintro _ w' ⟨h', hofile⟩
    refine ⟨h'.congr fun x ↦ ?_, hfree, hofile⟩
    rw [hfree, holds_none, add_zero]

omit [DecidableEq P] in
/-- `fileclose` gives a reference back. -/
theorem fileclose_midway (f : F) (h : Midway p g w) :
    Ensures (fileclose f) w fun _ w' ↦ Midway p (fun x ↦ g x - holds (some f) x) w' ∧
      w'.proc = w.proc := by
  apply ((fileclose_ledger f h.ledger).and (fileclose_tab w f)).mono
  rintro _ w' ⟨⟨hl, hproc, -⟩, htab⟩
  refine ⟨⟨hl, ?_, ?_, ?_⟩, hproc⟩
  · exact h.spaces.still htab.still fun q ↦ by rw [htab.proc]
  · intro q hq
    rw [hproc] at hq
    have hidle := h.idle q hq
    exact ⟨fun i ↦ by rw [hproc, hidle.vmas], fun fd ↦ by rw [hproc, hidle.ofile]⟩
  · rw [hproc]
    exact h.live

/-- A page fault in the middle of a call. -/
theorem fault_midway (a : Nat) (access : Access) (h : Midway p g w) :
    Ensures (vmResolveFault p a access) w fun _ w' ↦ Midway p g w' ∧
      (w'.proc p).ofile = (w.proc p).ofile := by
  apply ((vmResolveFault_core w p a access).and
    (vmResolveFault_own a access (h.spaces p h.live).space)).mono
  rintro _ w' ⟨hcore, hown, hspace⟩
  refine ⟨⟨h.ledger.silent hcore.silent, h.spaces.own h.live hown hspace, ?_, ?_⟩, ?_⟩
  · intro q hq
    rw [hcore.proc] at hq
    exact hcore.silent.idle (h.idle q hq)
  · rw [hcore.proc]
    exact h.live
  · rw [hcore.proc]

/-! ### The calls -/

/-- `sys_open` behind its allocations: the descriptor keeps the file, or both are given back. -/
theorem openEntry_midway {fd : Fin nofile} {f : F} (omode : BitVec 32) (readable writable : Bool)
    (e : Entry) (opened : Bool) (h : Midway p g w) (hfd : (w.proc p).ofile fd = some f) :
    Ensures (openEntry p fd f omode readable writable e opened) w fun _ w' ↦ Midway p g w' := by
  unfold openEntry
  rw [ensures_bind]
  have htrunc : Ensures (doIf (e.directory = false ∧ omode &&& oTrunc ≠ 0)
      (modify fun w ↦ { w with data := update w.data e.ep [] })) w
      fun _ w' ↦ Midway p g w' ∧ w'.proc = w.proc := by
    rw [ensures_doIf, ensures_modify]
    refine ⟨fun _ ↦ ⟨⟨⟨h.ledger.counted, h.ledger.pos, h.ledger.gone, h.ledger.file⟩, ?_, ?_,
      h.live⟩, rfl⟩, fun _ ↦ ⟨h, rfl⟩⟩
    · exact h.spaces.still ⟨rfl, fun _ ↦ rfl, fun _ ↦ rfl, fun _ ↦ rfl⟩ fun _ ↦ rfl
    · exact fun q hq ↦ ⟨(h.idle q hq).vmas, (h.idle q hq).ofile⟩
  apply htrunc.mono
  rintro _ w1 ⟨h1, hproc1⟩
  refine (setFile_midway f _ h1).bind ?_
  rintro _ w2 ⟨h2, hproc2⟩
  cases e.device with
  | none =>
    simp only [ensures_bind, ensures_pure]
    exact (setFile_midway f _ h2).mono fun _ _ h3 ↦ h3.1
  | some dev =>
    simp only [ensures_bind]
    refine (setFile_midway f _ h2).mono ?_
    rintro _ w3 ⟨h3, hproc3⟩
    rw [ensures_ite]
    refine ⟨fun _ ↦ ensures_pure.mpr h3, fun _ ↦ ?_⟩
    refine (setFd_midway fd none h3).bind ?_
    rintro _ w4 ⟨h4, -⟩
    simp only [ensures_bind, ensures_pure]
    refine (fileclose_midway f h4).mono ?_
    rintro _ w5 ⟨h5, -⟩
    apply h5.congr
    intro x
    rw [hproc3, hproc2, hproc1, hfd, holds_none]
    omega

/-- `sys_open` keeps the counts, whichever way it returns. -/
theorem sysOpen_midway (ftable : List F) (omode : BitVec 32) (entry : Option Entry)
    (opened : Bool) (h : Midway p g w) :
    Ensures (sysOpen ftable p omode entry opened) w fun _ w' ↦ Midway p g w' := by
  unfold sysOpen
  rw [ensures_ite]
  refine ⟨fun _ ↦ ensures_pure.mpr h, fun _ ↦ ?_⟩
  split
  next readable writable e _ _ =>
    rw [ensures_ite]
    refine ⟨fun _ ↦ ensures_pure.mpr h, fun _ ↦ ?_⟩
    apply (filealloc_midway ftable h).bind
    intro r w1 h1
    cases r with
    | none => exact ensures_pure.mpr (h1.congr fun f ↦ by rw [holds_none, add_zero])
    | some f =>
      simp only [ensures_bind]
      apply (fdalloc_midway f h1).mono
      intro r w2 h2
      cases r with
      | none =>
        simp only [ensures_bind, ensures_pure]
        refine (fileclose_midway f h2.1).mono ?_
        rintro _ w3 ⟨h3, -⟩
        exact h3.congr fun x ↦ by omega
      | some fd =>
        obtain ⟨hmid, -, hofile⟩ := h2
        apply openEntry_midway
        · exact hmid.congr fun x ↦ by omega
        · rw [hofile, update_self]
  next => exact ensures_pure.mpr h

omit [DecidableEq P] in
/-- `pipealloc` returns two files whose references nothing holds yet, or keeps nothing. -/
theorem pipealloc_midway (ftable : List F) (page : Bool) (h : Midway p g w) :
    Ensures (pipealloc ftable page) w fun r w' ↦
      Midway p (fun x ↦ g x + holds (r.map Prod.fst) x + holds (r.map Prod.snd) x) w' := by
  unfold pipealloc
  apply (filealloc_midway ftable h).bind
  intro r w1 h1
  cases r with
  | none => exact ensures_pure.mpr (h1.congr fun f ↦ by simp)
  | some rf =>
    simp only [ensures_bind]
    apply (filealloc_midway ftable h1).mono
    intro r w2 h2
    cases r with
    | none =>
      simp only [ensures_bind, ensures_pure]
      refine (fileclose_midway rf h2).mono ?_
      rintro _ w3 ⟨h3, -⟩
      apply h3.congr
      intro f
      simp only [Option.map_none, holds_none]
      omega
    | some wf =>
      simp only [ensures_bind, ensures_ite, ensures_pure]
      constructor
      · intro _
        refine (setFile_midway rf _ h2).mono ?_
        rintro _ w3 ⟨h3, -⟩
        exact (setFile_midway wf _ h3).mono fun _ _ h4 ↦ h4.1
      · intro _
        refine (fileclose_midway rf h2).mono ?_
        rintro _ w3 ⟨h3, -⟩
        refine (fileclose_midway wf h3).mono ?_
        rintro _ w4 ⟨h4, -⟩
        apply h4.congr
        intro f
        simp only [Option.map_none, holds_none]
        omega

/-- Clearing different descriptors hands out their references. -/
theorem clearFds_midway (fds : List (Fin nofile)) (hnodup : fds.Nodup) (h : Midway p g w) :
    Ensures (forEach (fun fd ↦ setFd p fd none) fds) w fun _ w' ↦
      Midway p (fun f ↦ g f + (fds.map fun fd ↦ holds ((w.proc p).ofile fd) f).sum) w' := by
  induction fds generalizing w g with
  | nil => exact ensures_pure.mpr (h.congr fun f ↦ by simp)
  | cons fd fds ih =>
    rw [List.nodup_cons] at hnodup
    change Ensures (setFd p fd none >>= fun _ ↦ forEach (fun fd ↦ setFd p fd none) fds) w _
    refine (setFd_midway fd none h).bind ?_
    rintro _ w1 ⟨h1, hofile⟩
    apply (ih hnodup.2 h1).mono
    intro _ w2 h2
    apply h2.congr
    intro f
    have hrest : (fds.map fun fd' ↦ holds ((w1.proc p).ofile fd') f) =
        fds.map fun fd' ↦ holds ((w.proc p).ofile fd') f := by
      apply List.map_congr_left
      intro fd' hfd'
      rw [hofile, update_of_ne]
      rintro rfl
      exact hnodup.1 hfd'
    rw [hrest, holds_none, List.map_cons, List.sum_cons]
    omega

/-- The way back of `sys_pipe`. -/
theorem pipeUndo_midway {fds : List (Fin nofile)} (hnodup : fds.Nodup) (rf wf : F)
    {g' : F → Int} (h : Midway p g w)
    (hg : ∀ f, g' f = g f + (fds.map fun fd ↦ holds ((w.proc p).ofile fd) f).sum -
      holds (some rf) f - holds (some wf) f) :
    Ensures (pipeUndo p fds rf wf) w fun _ w' ↦ Midway p g' w' := by
  unfold pipeUndo
  apply (clearFds_midway fds hnodup h).bind
  intro _ w1 h1
  apply (fileclose_midway rf h1).bind
  rintro _ w2 ⟨h2, -⟩
  simp only [ensures_bind, ensures_pure]
  apply (fileclose_midway wf h2).mono
  rintro _ w3 ⟨h3, -⟩
  exact h3.congr hg

/-- `sys_pipe` keeps the counts, whichever way it returns. -/
theorem sysPipe_midway (ftable : List F) (page : Bool) (touched : List Nat) (stored : Bool)
    (h : Midway p g w) :
    Ensures (sysPipe ftable p page touched stored) w fun _ w' ↦ Midway p g w' := by
  unfold sysPipe
  apply (pipealloc_midway ftable page h).bind
  intro r w1 h1
  cases r with
  | none => exact ensures_pure.mpr (h1.congr fun f ↦ by simp)
  | some files =>
    obtain ⟨rf, wf⟩ := files
    simp only [Option.map_some] at h1
    simp only [ensures_bind]
    apply (fdalloc_midway rf h1).mono
    intro r w2 h2
    cases r with
    | none =>
      apply pipeUndo_midway List.nodup_nil rf wf h2.1
      intro f
      rw [List.map_nil, List.sum_nil]
      omega
    | some fd0 =>
      obtain ⟨h2, -, hofile2⟩ := h2
      have hfd0 : (w2.proc p).ofile fd0 = some rf := by rw [hofile2, update_self]
      simp only [ensures_bind]
      apply (fdalloc_midway wf h2).mono
      intro r w3 h3
      cases r with
      | none =>
        apply pipeUndo_midway (List.nodup_singleton fd0) rf wf h3.1
        intro f
        rw [List.map_singleton, List.sum_singleton, h3.2, hfd0]
        omega
      | some fd1 =>
        obtain ⟨h3, hfree3, hofile3⟩ := h3
        have hne : fd0 ≠ fd1 := by
          rintro rfl
          rw [hfd0] at hfree3
          cases hfree3
        have hfaults : Ensures
            (forEach (fun a ↦ do let _ ← vmResolveFault p a .write) touched) w3
            fun _ w' ↦ Midway p (fun x ↦ g x) w' ∧ (w'.proc p).ofile = (w3.proc p).ofile := by
          apply ensures_forEach
            (fun _ w' ↦ Midway p (fun x ↦ g x) w' ∧ (w'.proc p).ofile = (w3.proc p).ofile)
          · rintro a _ w4 ⟨h4, hofile4⟩
            simp only [ensures_bind, ensures_pure]
            apply (fault_midway a .write h4).mono
            rintro _ w5 ⟨h5, hofile5⟩
            exact ⟨h5, by rw [hofile5, hofile4]⟩
          · exact ⟨h3.congr fun x ↦ by omega, rfl⟩
        simp only [ensures_bind, ensures_ite, ensures_pure]
        apply hfaults.mono
        rintro _ w4 ⟨h4, hofile4⟩
        refine ⟨fun _ ↦ h4, fun _ ↦ ?_⟩
        apply pipeUndo_midway (by simp [hne]) rf wf h4
        intro f
        rw [List.map_cons, List.map_singleton, List.sum_cons, List.sum_singleton, hofile4, hofile3,
          update_self, update_of_ne hne, hfd0]
        omega

/-- `sys_dup` keeps the counts, whichever way it returns. -/
theorem dupFd_midway (fd : Fin nofile) (h : Midway p g w) :
    Ensures (dupFd p fd) w fun _ w' ↦ Midway p g w' := by
  unfold dupFd
  rw [ensures_bind, ensures_get]
  split
  next => exact ensures_pure.mpr h
  next f _ =>
    apply (fdalloc_midway f h).bind
    intro r w1 h1
    cases r with
    | none => exact ensures_pure.mpr h1.1
    | some fd' =>
      obtain ⟨h1, -, -⟩ := h1
      simp only [ensures_bind, ensures_pure]
      apply ((filedup_ledger f h1.ledger).and (filedup_tab w1 f)).mono
      rintro _ w2 ⟨⟨hl, hproc, -⟩, htab⟩
      refine ⟨hl.congr (fun _ ↦ rfl) fun x ↦ by omega, ?_, ?_, ?_⟩
      · exact h1.spaces.still htab.still fun q ↦ by rw [htab.proc]
      · intro q hq
        rw [hproc] at hq
        have hidle := h1.idle q hq
        exact ⟨fun i ↦ by rw [hproc, hidle.vmas], fun fd ↦ by rw [hproc, hidle.ofile]⟩
      · rw [hproc]
        exact h1.live

/-! ### Runs -/

/-- Every call keeps the counts. -/
theorem runFileCall_books (b : Boot P) (ftable : List F) {call : FileCall P F} (h : Books w)
    (hs : Spaces w) (hen : FileEnabled b w call) :
    Ensures (runFileCall b ftable call) w fun _ w' ↦ Books w' ∧ Spaces w' := by
  cases call with
  | vm call => exact (runCall_books b h hs hen).and (runCall_spaces b hs hen)
  | sysOpen p omode entry opened =>
    change Ensures (do let _ ← sysOpen ftable p omode entry opened) w _
    simp only [ensures_bind, ensures_pure]
    exact (sysOpen_midway ftable omode entry opened (h.midway hs hen)).mono fun _ _ h' ↦ h'.books
  | sysDup p fd =>
    change Ensures (do let _ ← dupFd p fd) w _
    simp only [ensures_bind, ensures_pure]
    exact (dupFd_midway fd (h.midway hs hen)).mono fun _ _ h' ↦ h'.books
  | sysPipe p page touched stored =>
    change Ensures (do let _ ← sysPipe ftable p page touched stored) w _
    simp only [ensures_bind, ensures_pure]
    exact (sysPipe_midway ftable page touched stored (h.midway hs hen)).mono
      fun _ _ h' ↦ h'.books

/-- The counts are exact after every run from the boot. -/
theorem books_of_fileRuns {b : Boot P} {ftable : List F} {data : Nat → List UInt8}
    {es : List (FileCall P F × List (Option (Nat × O)) × List Bool)} {w : World P O F}
    (h : Runs (FileStep b ftable) (World.boot data) es w) : Books w ∧ Spaces w := by
  apply h.invariant (fun w ↦ Books w ∧ Spaces w)
  · rintro w1 e w2 ⟨hbooks, hspaces⟩ ⟨hen, hcall⟩
    have hquiet : Quiet w1 { w1 with answers := e.2.1, io := e.2.2, slept := false } :=
      .of_eq rfl rfl rfl rfl rfl
    have hen' : FileEnabled b { w1 with answers := e.2.1, io := e.2.2, slept := false } e.1 := by
      cases hc : e.1 <;> rw [hc] at hen <;> exact hen
    exact (runFileCall_books b ftable (hbooks.quiet hquiet) (hspaces.quiet hquiet) hen').of_ok ()
      w2 hcall
  · exact ⟨books_boot data, fun p hp ↦ by cases hp⟩

/-- After every run of opens, pipes, dups, closes, mappings, forks, execs, exits and waits of any
number of processes, with every way in which they fail, the reference count of a file is the number
of descriptors that hold it plus the number of objects that it backs, and nothing refers to a file
whose count is zero. -/
theorem file_refcount {b : Boot P} {ftable : List F} {data : Nat → List UInt8}
    {es : List (FileCall P F × List (Option (Nat × O)) × List Bool)} {w : World P O F}
    (h : Runs (FileStep b ftable) (World.boot data) es w) (f : F) :
    (w.file f).ref = refs w.fdFile f + refs w.objFile f ∧
      ((w.file f).ref = 0 → (∀ p fd, (w.proc p).ofile fd ≠ some f) ∧
        ∀ o x, w.obj o = some x → x.file ≠ some f) := by
  have hcount : (w.file f).ref = refs w.fdFile f + refs w.objFile f := by
    have hfile := (books_of_fileRuns h).1.ledger.file f
    omega
  refine ⟨hcount, fun hzero ↦ ⟨fun p fd hfd ↦ ?_, fun o x hx hfile ↦ ?_⟩⟩
  · have hpos : 0 < refs w.fdFile f := refs_pos.mpr ⟨(p, fd), hfd⟩
    omega
  · have hpos : 0 < refs w.objFile f := by
      apply refs_pos.mpr
      refine ⟨o, ?_⟩
      rw [World.objFile, hx]
      exact hfile
    omega

/-- Whether a call returns, to a state with `good`. -/
def FileCall.returnsTo (b : Boot P) (ftable : List F) (w : World P O F)
    (e : FileCall P F × List (Option (Nat × O)) × List Bool) (good : World P O F → Bool) : Bool :=
  match runFileCall b ftable e.1 { w with answers := e.2.1, io := e.2.2, slept := false } with
  | .ok (_, w') => good w'
  | .error _ => false

omit [Fintype P] [Fintype O] in
/-- A call that computes is a step, to a state with what is computed to hold there. -/
theorem fileStep_of_returnsTo {b : Boot P} {ftable : List F} {w : World P O F}
    {e : FileCall P F × List (Option (Nat × O)) × List Bool} {good : World P O F → Bool}
    (hen : FileEnabled b w e.1) (h : FileCall.returnsTo b ftable w e good = true) :
    ∃ w', FileStep b ftable w e w' ∧ good w' := by
  unfold FileCall.returnsTo at h
  split at h
  next u w' heq => exact ⟨w', ⟨hen, heq⟩, h⟩
  next => cases h

/-- The first process opens a file. -/
theorem file_refcount_small : ∃ w : World Bool (Fin 64) (Fin 100),
    (∃ es, Runs (FileStep .small (List.finRange 100)) (World.boot fun _ ↦ []) es w) ∧
      (w.file 0).ref = 1 ∧ refs w.fdFile 0 + refs w.objFile 0 = 1 := by
  let init : FileCall Bool (Fin 100) × List (Option (Nat × Fin 64)) × List Bool :=
    ⟨.vm (.userinit fun _ ↦ 0), (List.range' 10 20).map fun i ↦ some (i, Fin.ofNat 64 i), []⟩
  let open' : FileCall Bool (Fin 100) × List (Option (Nat × Fin 64)) × List Bool :=
    ⟨.sysOpen false 0 (some ⟨7, false, none⟩) false, [], []⟩
  let opened (w : World Bool (Fin 64) (Fin 100)) : Bool := (w.file 0).ref = 1
  let ready (w : World Bool (Fin 64) (Fin 100)) : Bool := (w.proc false).state = .live &&
    FileCall.returnsTo .small (List.finRange 100) w open' opened
  have hinit : FileCall.returnsTo .small (List.finRange 100) (World.boot fun _ ↦ []) init ready =
      true := by decide +kernel
  have henabled : FileEnabled .small (World.boot fun _ ↦ [] : World Bool (Fin 64) (Fin 100))
    init.1 :=
    rfl
  obtain ⟨w1, hstep1, hready⟩ := fileStep_of_returnsTo henabled hinit
  obtain ⟨hlive, hnext⟩ := Bool.and_eq_true_iff.mp hready
  have hfree : FileEnabled .small w1 open'.1 := of_decide_eq_true hlive
  obtain ⟨w2, hstep2, hopened⟩ := fileStep_of_returnsTo hfree hnext
  have hrun : Runs (FileStep .small (List.finRange 100)) (World.boot fun _ ↦ []) [init, open'] w2 :=
    .cons hstep1 (.single hstep2)
  have href : (w2.file 0).ref = 1 := of_decide_eq_true hopened
  exact ⟨w2, ⟨_, hrun⟩, href, (file_refcount hrun 0).1.symm.trans href⟩

end Xv6K210.Vm
