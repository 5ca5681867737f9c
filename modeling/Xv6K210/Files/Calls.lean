import Xv6K210.Ecache.Identity
import Xv6K210.Vm.OpenFiles

/-!
# Files, devices and entries

Sources `kernel/fs/file.c:25–102,127–260`, `kernel/syscall/sysfile.c:37–110,163–400`,
`kernel/devsw/device.c`, `kernel/ipc/pipe.c:17–51`, `kernel/proc/exec.c:44–172` and
`kernel/proc/proc.c:588–594,690–716,908–913`. The table of files with the fields that `open` and
`close` touch, above the entry cache of module `Ecache`. Which mapping objects lose their last area
in a call, and what a driver answers when it is opened, come with the call.
-/

namespace Xv6K210.Files

open Xv6K210.Base Xv6K210.Fs Xv6K210.Ecache Function
open Xv6K210.Vm (nofile oAccmode oCreate oTrunc oOther parseAccessMode)

variable {P F O S : Type} [DecidableEq P] [DecidableEq F] [DecidableEq O] [DecidableEq S]

/-- `NDEV`. -/
def ndev : Int := 10

/-- `struct file_operations`: which operations a driver has. -/
structure FileOps where
  hasOpen : Bool
  hasClose : Bool
  hasRead : Bool
  hasWrite : Bool
  hasMmap : Bool
  hasIoctl : Bool
  deriving DecidableEq, Repr

/-- The `type` of a file. -/
inductive FileType where
  | none
  | pipe
  | entry
  | device
  deriving DecidableEq, Repr

/-- `struct file`. Two fields are not the code's: `opening` is the number of the opening that set
`ops` and `private_data`, and `opened` tells whether the file has been opened as a device since it
was allocated. -/
structure File (S : Type) where
  type : FileType
  ref : Nat
  readable : Bool
  writable : Bool
  ep : Option (Ent S)
  major : Int
  minor : Int
  ops : Option FileOps
  privateData : Option Nat
  opening : Nat
  opened : Bool

/-- A process, as far as files go. -/
structure Proc (F S : Type) where
  ofile : Fin nofile → Option F
  cwd : Ent S

/-- The calls of drivers. An opening has its number and yields the private data, unless it fails;
the others act on the driver and the private data that an opening set. -/
inductive DevCall where
  | opened (n : Nat) (ops : FileOps) (result : Option (Option Nat))
  | used (n : Nat) (data : Option Nat)
  | closed (n : Nat) (data : Option Nat)
  deriving DecidableEq, Repr

/-- The entry cache, the files, the processes, and the file of each mapping object. Three fields
are not the code's: the number of openings, the calls of drivers, the latest first, and the entries
of the opened device files that were closed. -/
structure World (P F O S : Type) where
  cache : Cache S
  file : F → File S
  proc : P → Option (Proc F S)
  obj : O → Option F
  openings : Nat
  log : List DevCall
  dropped : List (Ent S)

/-- The routines on files. -/
abbrev Sys (P F O S α : Type) := Prog (World P F O S) α

/-- A routine of the entry cache. -/
def inCache {α : Type} (x : Cached S α) : Sys P F O S α := fun w ↦
  match x w.cache with
  | .ok (a, c) => .ok (a, { w with cache := c })
  | .error msg => .error msg

/-- Change a file. -/
def setFile (f : F) (g : File S → File S) : Sys P F O S Unit :=
  modify fun w ↦ { w with file := update w.file f (g (w.file f)) }

/-- Change a process. -/
def setProc (p : P) (g : Proc F S → Proc F S) : Sys P F O S Unit :=
  modify fun w ↦ { w with proc := update w.proc p ((w.proc p).map g) }

/-- `p->ofile[fd] = f`. -/
def setFd (p : P) (fd : Fin nofile) (f : Option F) : Sys P F O S Unit :=
  setProc p fun q ↦ { q with ofile := update q.ofile fd f }

/-- Note a call of a driver. -/
def note (c : DevCall) : Sys P F O S Unit := modify fun w ↦ { w with log := c :: w.log }

/-! ### The table of files -/

/-- `filealloc`: the first file of the table without a reference. -/
def filealloc (ftable : List F) : Sys P F O S (Option F) := do
  let w ← get
  match ftable.find? fun f ↦ (w.file f).ref = 0 with
  | none => pure none
  | some f =>
    setFile f fun x ↦ { x with ref := 1, opened := false }
    pure (some f)

/-- `filedup`. -/
def filedup (f : F) : Sys P F O S Unit := do
  let w ← get
  if (w.file f).ref < 1 then Prog.halt "filedup"
  else setFile f fun x ↦ { x with ref := x.ref + 1 }

/-- `device_get`. -/
def deviceGet (devices : Nat → Option FileOps) (major : Int) : Option FileOps :=
  if major ≤ 0 ∨ ndev ≤ major then none else devices major.toNat

/-- What the `open` operation of a driver does: it fails, or returns with private data or
without. -/
inductive Answer where
  | fails
  | plain
  | context
  deriving DecidableEq, Repr

/-- The private data after an answer. -/
def Answer.data (n : Nat) : Answer → Option (Option Nat)
  | .fails => none
  | .plain => some none
  | .context => some (some n)

/-- The call of the `open` operation; a driver without one is opened all the same. -/
def openDevice (f : F) (ops : FileOps) (n : Nat) (answer : Answer) : Sys P F O S Bool := do
  let result := if ops.hasOpen then answer.data n else some none
  note (.opened n ops result)
  match result with
  | none => pure false
  | some data =>
    setFile f fun x ↦ { x with privateData := data, opened := true }
    pure true

/-- `fileopen`. -/
def fileopen (devices : Nat → Option FileOps) (f : F) (answer : Answer) : Sys P F O S Bool := do
  let w ← get
  if (w.file f).type ≠ .device then
    pure false
  else
    match deviceGet devices (w.file f).major with
    | none => pure false
    | some ops =>
      let n := w.openings + 1
      set { w with openings := n }
      setFile f fun x ↦ { x with ops := some ops, privateData := none, opening := n }
      openDevice f ops n answer

/-- The end of `fileclose`, with the file as it was. -/
def closeLast (ff : File S) : Sys P F O S Unit :=
  match ff.type with
  | .none => pure ()
  | .pipe => pure ()
  | .entry =>
    match ff.ep with
    | none => Prog.halt "eput"
    | some e => inCache (eput e)
  | .device => do
    modify fun w ↦ { w with dropped := if ff.opened then ff.ep.toList ++ w.dropped else w.dropped }
    match ff.ops with
    | none => pure ()
    | some ops => Prog.doIf ops.hasClose (note (.closed ff.opening ff.privateData))

/-- `fileclose`. -/
def fileclose (f : F) : Sys P F O S Unit := do
  let w ← get
  if (w.file f).ref < 1 then
    Prog.halt "fileclose"
  else if 1 < (w.file f).ref then
    setFile f fun x ↦ { x with ref := x.ref - 1 }
  else do
    setFile f fun x ↦ { x with ref := 0, type := .none }
    closeLast (w.file f)

/-- A call of an operation of an open device: `fileread`, `filewrite`, `fileioctl` and the check of
a mapping. -/
def useDevice (f : F) (has : FileOps → Bool) : Sys P F O S Unit := do
  let w ← get
  match (w.file f).ops with
  | none => pure ()
  | some ops =>
    Prog.doIf ((w.file f).type = .device ∧ has ops)
      (note (.used (w.file f).opening (w.file f).privateData))

/-! ### Descriptors -/

/-- `fdalloc`: the first free descriptor of the process. -/
def fdalloc (p : P) (f : F) : Sys P F O S (Option (Fin nofile)) := do
  let w ← get
  match (List.finRange nofile).find? fun fd ↦ ((w.proc p).bind fun q ↦ q.ofile fd).isNone with
  | none => pure none
  | some fd =>
    setFd p fd (some f)
    pure (some fd)

/-- `filealloc` and `fdalloc`, as `sys_open` asks for both. -/
def openSlot (ftable : List F) (p : P) : Sys P F O S (Option (F × Fin nofile)) := do
  match ← filealloc ftable with
  | none => pure none
  | some f =>
    match ← fdalloc p f with
    | none =>
      fileclose f
      pure none
    | some fd => pure (some (f, fd))

/-- The directory of a process. -/
def getCwd (p : P) : Sys P F O S (Ent S) := do
  let w ← get
  match w.proc p with
  | none => Prog.halt "elock"
  | some q => pure q.cwd

/-- The conversion to `short`. -/
def toShort (n : Nat) : Int := (BitVec.ofNat 16 n).toInt

/-- The entry that `sys_open` opens; a new one gets the place `off` in its directory. -/
def openPath (cwd : Ent S) (path : List UInt8) (omode : BitVec 32) (off : Nat) :
    Cached S (Option (Ent S)) := do
  if omode &&& oCreate ≠ 0 then
    create cwd path (.file (omode &&& oAccmode = 0)) 0 0 off
  else
    match ← ename cwd path with
    | none => pure none
    | some e =>
      elock e
      let c ← get
      if (c.ent e).isDir ∧ omode ≠ 0 then
        eunlock e
        eput e
        pure none
      else
        pure (some e)

/-- `sys_open`, from `f->ep = ep` on. -/
def openFile (devices : Nat → Option FileOps) (p : P) (fd : Fin nofile) (f : F) (e : Ent S)
    (d : Dirent S) (readable writable : Bool) (answer : Answer) :
    Sys P F O S (Option (Fin nofile)) := do
  setFile f fun x ↦ { x with ep := some e, readable, writable }
  if d.isDevice then
    setFile f fun x ↦ { x with
      type := .device, major := toShort d.firstClus, minor := toShort d.fileSize }
    if ← fileopen devices f answer then
      inCache (eunlock e)
      pure (some fd)
    else
      setFd p fd none
      fileclose f
      inCache do
        eunlock e
        eput e
      pure none
  else
    setFile f fun x ↦ { x with type := .entry }
    inCache (eunlock e)
    pure (some fd)

/-- `sys_open`; no result is -1. -/
def sysOpen (devices : Nat → Option FileOps) (ftable : List F) (p : P) (path : List UInt8)
    (omode : BitVec 32) (off : Nat) (answer : Answer) : Sys P F O S (Option (Fin nofile)) := do
  if omode &&& ~~~(oAccmode ||| oCreate ||| oTrunc ||| oOther) ≠ 0 then
    pure none
  else
    match parseAccessMode omode with
    | none => pure none
    | some (readable, writable) =>
      let cwd ← getCwd p
      match ← inCache (openPath cwd path omode off) with
      | none => pure none
      | some e =>
        match ← openSlot ftable p with
        | none =>
          inCache do
            eunlock e
            eput e
          pure none
        | some (f, fd) =>
          inCache do
            let c ← get
            Prog.doIf ((c.ent e).isDir = false ∧ omode &&& oTrunc ≠ 0) (etrunc e)
          let w ← get
          openFile devices p fd f e (w.cache.ent e) readable writable answer

/-- `sys_mkdir` and `sys_mknod`. -/
def sysMake (p : P) (path : List UInt8) (kind : NodeKind) (major minor off : Nat) :
    Sys P F O S Bool := do
  let cwd ← getCwd p
  inCache do
    match ← create cwd path kind major minor off with
    | none => pure false
    | some e =>
      eunlock e
      eput e
      pure true

/-- `sys_mkdir`. -/
def sysMkdir (p : P) (path : List UInt8) (off : Nat) : Sys P F O S Bool :=
  sysMake p path .dir 0 0 off

/-- `sys_mknod`. The numbers are stored as unsigned ones. -/
def sysMknod (p : P) (path : List UInt8) (major minor : BitVec 32) (off : Nat) :
    Sys P F O S Bool := do
  if major.toInt ≤ 0 ∨ ndev ≤ major.toInt then pure false
  else sysMake p path .device major.toNat minor.toNat off

/-- `sys_remove`. -/
def sysRemove (p : P) (path : List UInt8) : Sys P F O S Bool := do
  let cwd ← getCwd p
  inCache (Ecache.sysRemove cwd path)

/-- `sys_chdir`. -/
def sysChdir (p : P) (path : List UInt8) : Sys P F O S Bool := do
  let cwd ← getCwd p
  match ← inCache (ename cwd path) with
  | none => pure false
  | some e =>
    inCache (elock e)
    let w ← get
    if (w.cache.ent e).isDir = false then
      inCache do
        eunlock e
        eput e
      pure false
    else
      inCache do
        eunlock e
        eput cwd
      setProc p fun q ↦ { q with cwd := e }
      pure true

/-- `argfd`. -/
def argfd (p : P) (fd : Fin nofile) : Sys P F O S (Option F) := do
  let w ← get
  pure ((w.proc p).bind fun q ↦ q.ofile fd)

/-- `sys_dup`. -/
def sysDup (p : P) (fd : Fin nofile) : Sys P F O S Unit := do
  match ← argfd p fd with
  | none => pure ()
  | some f =>
    match ← fdalloc p f with
    | none => pure ()
    | some _ => filedup f

/-- `sys_close`. -/
def sysClose (p : P) (fd : Fin nofile) : Sys P F O S Unit := do
  match ← argfd p fd with
  | none => pure ()
  | some f =>
    setFd p fd none
    fileclose f

/-- An operation on the device behind a descriptor. -/
def sysUse (p : P) (fd : Fin nofile) (has : FileOps → Bool) : Sys P F O S Unit := do
  match ← argfd p fd with
  | none => pure ()
  | some f => useDevice f has

/-! ### Pipes -/

/-- `pipealloc`, with whether a page is there for the pipe. -/
def pipealloc (ftable : List F) (page : Bool) : Sys P F O S (Option (F × F)) := do
  match ← filealloc ftable with
  | none => pure none
  | some rf =>
    match ← filealloc ftable with
    | none =>
      fileclose rf
      pure none
    | some wf =>
      if page then
        setFile rf fun x ↦ { x with type := .pipe, readable := true, writable := false }
        setFile wf fun x ↦ { x with type := .pipe, readable := false, writable := true }
        pure (some (rf, wf))
      else
        fileclose rf
        fileclose wf
        pure none

/-- The way back of `sys_pipe`: the descriptors that were allocated, and both files. -/
def pipeUndo (p : P) (fds : List (Fin nofile)) (rf wf : F) : Sys P F O S Unit := do
  Prog.forEach (fun fd ↦ setFd p fd none) fds
  fileclose rf
  fileclose wf

/-- `sys_pipe`, with whether the descriptors are stored. -/
def sysPipe (ftable : List F) (p : P) (page stored : Bool) : Sys P F O S Unit := do
  match ← pipealloc ftable page with
  | none => pure ()
  | some (rf, wf) =>
    match ← fdalloc p rf with
    | none => pipeUndo p [] rf wf
    | some fd0 =>
      match ← fdalloc p wf with
      | none => pipeUndo p [fd0] rf wf
      | some fd1 => if stored then pure () else pipeUndo p [fd0, fd1] rf wf

/-! ### Mappings -/

/-- The object gives its file back. -/
def dropObject (o : O) : Sys P F O S Unit := do
  let w ← get
  match w.obj o with
  | none => pure ()
  | some f =>
    set { w with obj := update w.obj o none }
    fileclose f

/-- Objects whose last area goes. -/
def dropObjects (os : List O) : Sys P F O S Unit := Prog.forEach dropObject os

/-- `sys_mmap` of a descriptor. A device checks the mapping first; the object takes a reference,
and gives it back when the mapping fails. -/
def sysMmap (p : P) (fd : Fin nofile) (o : O) (accepted mapped : Bool) : Sys P F O S Unit := do
  match ← argfd p fd with
  | none => pure ()
  | some f =>
    useDevice f fun ops ↦ ops.hasMmap
    Prog.doIf accepted do
      filedup f
      if mapped then
        modify fun w ↦ { w with obj := update w.obj o (some f) }
      else
        fileclose f

/-! ### Processes -/

/-- The duplication of a descriptor in `fork`. -/
def forkFile (q : Proc F S) (fd : Fin nofile) : Sys P F O S Unit :=
  match q.ofile fd with
  | none => pure ()
  | some f => filedup f

/-- `fork`, when there is memory for the child. -/
def fork (p c : P) : Sys P F O S Unit := do
  let w ← get
  match w.proc p with
  | none => pure ()
  | some q =>
    Prog.forEach (forkFile q) (List.finRange nofile)
    inCache (edup q.cwd)
    modify fun w ↦ { w with proc := update w.proc c (some q) }

/-- `exec`. The mappings go when it succeeds. -/
def exec (p : P) (path : List UInt8) (loaded : Bool) (os : List O) : Sys P F O S Unit := do
  let cwd ← getCwd p
  match ← inCache (ename cwd path) with
  | none => pure ()
  | some e =>
    inCache (elock e)
    Prog.doIf loaded (dropObjects os)
    inCache do
      eunlock e
      eput e

/-- The closing of a descriptor in `exit`. -/
def exitFile (p : P) (fd : Fin nofile) : Sys P F O S Unit := do
  match ← argfd p fd with
  | none => pure ()
  | some f =>
    fileclose f
    setFd p fd none

/-- `exit`. -/
def exit (p : P) (os : List O) : Sys P F O S Unit := do
  Prog.forEach (exitFile p) (List.finRange nofile)
  dropObjects os
  let cwd ← getCwd p
  inCache (eput cwd)
  modify fun w ↦ { w with proc := update w.proc p none }

/-- The start of the first process, in `forkret`. -/
def start (p : P) : Sys P F O S Unit := do
  match ← inCache (ename .root [0x2f]) with
  | none => pure ()
  | some e => modify fun w ↦ { w with proc := update w.proc p (some ⟨fun _ ↦ none, e⟩) }

/-! ### Runs -/

/-- The calls. -/
inductive Call (P O : Type) where
  | start (p : P)
  | open (p : P) (path : List UInt8) (omode : BitVec 32) (off : Nat) (answer : Answer)
  | mkdir (p : P) (path : List UInt8) (off : Nat)
  | mknod (p : P) (path : List UInt8) (major minor : BitVec 32) (off : Nat)
  | remove (p : P) (path : List UInt8)
  | chdir (p : P) (path : List UInt8)
  | dup (p : P) (fd : Fin nofile)
  | close (p : P) (fd : Fin nofile)
  | use (p : P) (fd : Fin nofile) (has : FileOps → Bool)
  | pipe (p : P) (page stored : Bool)
  | mmap (p : P) (fd : Fin nofile) (o : O) (accepted mapped : Bool)
  | munmap (p : P) (os : List O)
  | fork (p c : P)
  | exec (p : P) (path : List UInt8) (loaded : Bool) (os : List O)
  | exit (p : P) (os : List O)

/-- The routine of a call. -/
def runCall (devices : Nat → Option FileOps) (ftable : List F) : Call P O → Sys P F O S Unit
  | .start p => start p
  | .open p path omode off answer => do
    let _ ← sysOpen devices ftable p path omode off answer
  | .mkdir p path off => do
    let _ ← sysMkdir p path off
  | .mknod p path major minor off => do
    let _ ← sysMknod p path major minor off
  | .remove p path => do
    let _ ← sysRemove p path
  | .chdir p path => do
    let _ ← sysChdir p path
  | .dup p fd => sysDup p fd
  | .close p fd => sysClose p fd
  | .use p fd has => sysUse p fd has
  | .pipe p page stored => sysPipe ftable p page stored
  | .mmap p fd o accepted mapped => sysMmap p fd o accepted mapped
  | .munmap _ os => dropObjects os
  | .fork p c => fork p c
  | .exec p path loaded os => exec p path loaded os
  | .exit p os => exit p os

/-- Who can make a call: a process that runs. The first one starts when there is none; a child and
a mapping object are new. -/
def Enabled (w : World P F O S) : Call P O → Prop
  | .start _ => ∀ q, w.proc q = none
  | .open p _ _ _ _ => (w.proc p).isSome
  | .mkdir p _ _ => (w.proc p).isSome
  | .mknod p _ _ _ _ => (w.proc p).isSome
  | .remove p _ => (w.proc p).isSome
  | .chdir p _ => (w.proc p).isSome
  | .dup p _ => (w.proc p).isSome
  | .close p _ => (w.proc p).isSome
  | .use p _ _ => (w.proc p).isSome
  | .pipe p _ _ => (w.proc p).isSome
  | .mmap p _ o _ _ => (w.proc p).isSome ∧ w.obj o = none
  | .munmap p _ => (w.proc p).isSome
  | .fork p c => (w.proc p).isSome ∧ w.proc c = none
  | .exec p _ _ _ => (w.proc p).isSome
  | .exit p _ => (w.proc p).isSome

/-- A call with the answers of the disk. -/
structure Event (P O : Type) where
  call : Call P O
  found : List (Option Found)
  empty : List Bool
  clusters : List Nat

/-- The answers of the disk to a call. -/
def World.answers (w : World P F O S) (e : Event P O) : World P F O S :=
  { w with cache := { w.cache with found := e.found, empty := e.empty, clusters := e.clusters } }

/-- One call that returns. -/
def Step (devices : Nat → Option FileOps) (ftable : List F) (w : World P F O S) (e : Event P O)
    (w' : World P F O S) : Prop :=
  Enabled w e.call ∧ runCall devices ftable e.call (w.answers e) = .ok ((), w')

/-- The state before the first process starts. -/
def World.boot (n rootClus : Nat) : World P F O (Fin n) where
  cache := (Users.boot n rootClus).cache
  file := fun _ ↦ ⟨.none, 0, false, false, none, 0, 0, none, none, 0, false⟩
  proc := fun _ ↦ none
  obj := fun _ ↦ none
  openings := 0
  log := []
  dropped := []

end Xv6K210.Files
