import Xv6K210.Fs.Status
import Xv6K210.Mount.Store
import Xv6K210.Vm.OpenFiles

/-!
# Processes that share a file

Sources `kernel/syscall/sysfile.c:65–100, 163–255, 492–534`,
`kernel/fs/file.c:25–102, 155–232` and `kernel/vm/mmap/mmap_file.c`. The open files, the
descriptors and the mappings of one directory entry, over the volume and its entries. Only the
file mappings are followed: those of a device do not reach the entry. The pages that a mapping has
in memory, with what processes stored there, come with the call that reads them.
-/

namespace Xv6K210.Fs

open Xv6K210.Base Function

/-- `O_APPEND`. -/
def oAppend : BitVec 32 := 0x008

/-- `struct file`, as far as an entry uses it. -/
structure FileSlot where
  ref : Nat
  type : FdType
  io : FileEntry
  deriving DecidableEq, Repr

/-- The file system, the file table, and the descriptors, objects and mappings of the processes. -/
structure Users (P F O : Type) where
  fs : FsState
  file : F → FileSlot
  ofile : P → Fin Vm.nofile → Option F
  obj : O → Option (Vm.MmapObject F)
  vmas : P → Fin Vm.nvma → Option (Vm.Vma O)

/-- A routine of the kernel. -/
abbrev Using (P F O α : Type) := Prog (Users P F O) α

variable {P F O : Type}

/-- The outcome of a routine on the volume. -/
def ofFs {α : Type} : Except Panic α → Using P F O α
  | .ok a => pure a
  | .error p => Prog.halt (Mount.panicText p)

/-! ### The entry -/

/-- The entry `i`. -/
def entry (i : Nat) : Using P F O Dirent := do
  let s ← get
  match s.fs.ent i with
  | none => Prog.halt "elock"
  | some e => pure e

/-- A routine on the volume and the entry. -/
def onEntry {α : Type} (i : Nat) (f : Volume → Dirent → Except Panic (Volume × Dirent × α)) :
    Using P F O α := do
  let s ← get
  match s.fs.ent i with
  | none => Prog.halt "elock"
  | some e =>
    let (v, e, a) ← ofFs (f s.fs.vol e)
    set { s with fs := s.fs.set v i (some e) }
    pure a

/-- The reference count of an entry, moved by `d`. -/
def FsState.addRef (s : FsState) (i : Nat) (d : Int) : FsState :=
  s.set s.vol i ((s.ent i).map fun e ↦ { e with ref := e.ref + d })

/-- `edup`. -/
def edup (i : Nat) : Using P F O Unit := modify fun s ↦ { s with fs := s.fs.addRef i 1 }

/-- A step on the volume. -/
def onVolume (op : Op) : Using P F O Unit := do
  let s ← get
  let fs ← ofFs (stepFs s.fs op)
  set { s with fs }

/-- `eput` (`fat32.c:700–730`). The last reference frees the clusters of a removed entry and
updates the slot of another one. -/
def eput (i : Nat) : Using P F O Unit := do
  let e ← entry i
  Prog.doIf (e.ref = 1 ∧ e.valid ≠ 0) (onVolume (.put i))
  modify fun s ↦ { s with fs := s.fs.addRef i (-1) }

section Files

variable [DecidableEq P] [DecidableEq F] [DecidableEq O]

/-! ### Files and descriptors -/

/-- Replace a file of the table. -/
def setFile (f : F) (g : FileSlot → FileSlot) : Using P F O Unit :=
  modify fun s ↦ { s with file := update s.file f (g (s.file f)) }

/-- `filealloc`: the first file of the table without a reference. -/
def filealloc (ftable : List F) : Using P F O (Option F) := do
  let s ← get
  match ftable.find? fun f ↦ (s.file f).ref = 0 with
  | none => pure none
  | some f =>
    setFile f fun x ↦ { x with ref := 1 }
    pure (some f)

/-- `filedup`. -/
def filedup (f : F) : Using P F O Unit := do
  let s ← get
  if (s.file f).ref < 1 then Prog.halt "filedup"
  else setFile f fun x ↦ { x with ref := x.ref + 1 }

/-- `fileclose`, of a file on the entry `i`. -/
def fileclose (i : Nat) (f : F) : Using P F O Unit := do
  let s ← get
  if (s.file f).ref < 1 then
    Prog.halt "fileclose"
  else if (s.file f).ref = 1 then
    setFile f fun x ↦ { x with ref := 0, type := .none }
    Prog.doIf ((s.file f).type = .entry) (eput i)
  else
    setFile f fun x ↦ { x with ref := x.ref - 1 }

/-- `p->ofile[fd] = f`. -/
def setFd (p : P) (fd : Fin Vm.nofile) (f : Option F) : Using P F O Unit :=
  modify fun s ↦ { s with ofile := update s.ofile p (update (s.ofile p) fd f) }

/-- `fdalloc`: the first free descriptor of the process. -/
def fdalloc (p : P) (f : F) : Using P F O (Option (Fin Vm.nofile)) := do
  let s ← get
  match (List.finRange Vm.nofile).find? fun fd ↦ (s.ofile p fd).isNone with
  | none => pure none
  | some fd =>
    setFd p fd (some f)
    pure (some fd)

/-! ### Opening, writing and closing -/

/-- The entry that `sys_open` opens, at the end of a path that leads to entry `i`. `create`
finds the existing entry. -/
def openPath (i : Nat) (omode : BitVec 32) : Using P F O (Option Dirent) := do
  edup i
  let e ← entry i
  if omode &&& Vm.oCreate ≠ 0 then
    if e.attr &&& attrDirectory ≠ 0 then
      eput i
      pure none
    else
      ofFs (elock e)
      pure (some e)
  else
    ofFs (elock e)
    if e.attr &&& attrDirectory ≠ 0 ∧ omode ≠ 0 then
      eput i
      pure none
    else
      pure (some e)

/-- `filealloc` and `fdalloc`, as `sys_open` asks for both. -/
def openSlot (i : Nat) (ftable : List F) (p : P) : Using P F O (Option (F × Fin Vm.nofile)) := do
  match ← filealloc ftable with
  | none => pure none
  | some f =>
    match ← fdalloc p f with
    | none =>
      fileclose i f
      pure none
    | some fd => pure (some (f, fd))

/-- `sys_open`, from `f->ep = ep` on. -/
def openFile (i : Nat) (p : P) (f : F) (fd : Fin Vm.nofile) (omode : BitVec 32)
    (readable writable opened : Bool) : Using P F O (Option (Fin Vm.nofile)) := do
  let e ← entry i
  if e.attr &&& attrDevice ≠ 0 then
    setFile f fun x ↦ { x with type := .device, io := { x.io with readable, writable } }
    if opened then
      pure (some fd)
    else
      setFd p fd none
      fileclose i f
      eput i
      pure none
  else
    setFile f fun x ↦ { x with
      type := .entry
      io := ⟨readable, writable, if omode &&& oAppend ≠ 0 then e.fileSize else 0⟩ }
    pure (some fd)

/-- `sys_open`, with whether `fileopen` succeeds on a device; no result is -1. -/
def sysOpen (i : Nat) (ftable : List F) (p : P) (omode : BitVec 32) (opened : Bool) :
    Using P F O (Option (Fin Vm.nofile)) := do
  if omode &&& ~~~(Vm.oAccmode ||| Vm.oCreate ||| Vm.oTrunc ||| Vm.oOther) ≠ 0 then
    pure none
  else
    match Vm.parseAccessMode omode with
    | none => pure none
    | some (readable, writable) =>
      match ← openPath i omode with
      | none => pure none
      | some e =>
        match ← openSlot i ftable p with
        | none =>
          eput i
          pure none
        | some (f, fd) =>
          Prog.doIf (e.attr &&& attrDirectory = 0 ∧ omode &&& Vm.oTrunc ≠ 0) (onVolume (.trunc i))
          openFile i p f fd omode readable writable opened

/-- `sys_write`, of a file on the entry `i`; what a device does with the bytes is its own. -/
def sysWrite (i : Nat) (p : P) (fd : Fin Vm.nofile) (mem : Nat → Option UInt8) (addr : Nat)
    (n : Int) : Using P F O Int := do
  let s ← get
  match s.ofile p fd with
  | none => pure (-1)
  | some f =>
    if (s.file f).io.writable = false then
      pure (-1)
    else if (s.file f).type = .entry then
      let (x, r) ← onEntry i fun v e ↦ filewrite v e (s.file f).io mem addr n
      setFile f fun y ↦ { y with io := x }
      pure r
    else if (s.file f).type = .device then
      pure 0
    else
      Prog.halt "filewrite"

/-- `sys_close`. -/
def sysClose (i : Nat) (p : P) (fd : Fin Vm.nofile) : Using P F O Unit := do
  let s ← get
  match s.ofile p fd with
  | none => pure ()
  | some f =>
    setFd p fd none
    fileclose i f

/-! ### Mappings -/

/-- `fileread_at`, into a page; whether it did not fail. -/
def filereadAt (i : Nat) (f : F) (offset n : Nat) : Using P F O Bool := do
  let s ← get
  if (s.file f).type ≠ .entry ∨ 0xffffffff < offset then
    pure false
  else
    let (r, _) ← onEntry i fun v e ↦ do
      elock e
      eread v e (.read fun _ ↦ true) offset n
    pure (0 ≤ r)

/-- `filewrite_at` (`file.c:214–232`) from its lock on, from a page; whether it did not fail. -/
def ewriteAt (page : ByteMem) (offset n : Nat) (v : Volume) (e : Dirent) :
    Except Panic (Volume × Dirent × Bool) := do
  elock e
  if e.fileSize ≤ offset then
    return (v, e, true)
  else
    let n := if e.fileSize < offset + n then e.fileSize - offset else n
    let (v, e, r) ← ewrite v e (.write fun k ↦ some (page k)) offset n
    return (v, e, r = n)

/-- `filewrite_at`, from a page; whether it did not fail. -/
def filewriteAt (i : Nat) (f : F) (page : ByteMem) (offset n : Nat) : Using P F O Bool := do
  let s ← get
  if (s.file f).type ≠ .entry ∨ (s.file f).io.writable = false ∨ 0xffffffff < offset then
    pure false
  else
    onEntry i (ewriteAt page offset n)

/-- Replace an object. -/
def setObj (o : O) (x : Option (Vm.MmapObject F)) : Using P F O Unit :=
  modify fun s ↦ { s with obj := update s.obj o x }

/-- Replace the mapping of a slot. -/
def setVma (p : P) (j : Fin Vm.nvma) (v : Option (Vm.Vma O)) : Using P F O Unit :=
  modify fun s ↦ { s with vmas := update s.vmas p (update (s.vmas p) j v) }

/-- `mmap_object_get`. -/
def mmapObjectGet (o : Option O) : Using P F O Unit := do
  let s ← get
  match o, o.bind s.obj with
  | some o, some x =>
    if x.refcnt < 1 then Prog.halt "mmap_object_get"
    else setObj o (some { x with refcnt := x.refcnt + 1 })
  | _, _ => Prog.halt "mmap_object_get"

/-- `mmap_object_put`. -/
def mmapObjectPut (i : Nat) (o : O) : Using P F O Unit := do
  let s ← get
  match s.obj o with
  | none => Prog.halt "mmap_object_put"
  | some x =>
    if x.refcnt < 1 then
      Prog.halt "mmap_object_put"
    else if x.refcnt = 1 then
      Prog.forEach (fileclose i) x.file.toList
      setObj o none
    else
      setObj o (some { x with refcnt := x.refcnt - 1 })

/-- `mmap_map_create` for a file, where `vma_find_address` finds `start`, 0 for no room. -/
def mmapMapCreate (p : P) (addr length prot flags : Nat) (o : O) (offset start : Nat) :
    Using P F O Bool := do
  let s ← get
  if addr ≠ 0 ∨ length = 0 ∨ Vm.mmapTop < length then
    pure false
  else if 8 ≤ prot ∨ prot.testBit 1 ∧ ¬ prot.testBit 0 then
    pure false
  else
    match Vm.vmaFindFree (s.vmas p) with
    | none => pure false
    | some j =>
      if start = 0 then
        pure false
      else
        setVma p j (some (Vm.Vma.fresh .file start length prot flags (some o) offset))
        pure true

/-- `vma_map_file`. The object is allocated at `object`. -/
def vmaMapFile (i : Nat) (p : P) (addr length prot flags : Nat) (f : F) (offset start : Nat)
    (object : Option O) : Using P F O Bool := do
  let s ← get
  if flags ≠ 2 ∧ flags ≠ 1 then
    pure false
  else if offset % Vm.pgsize ≠ 0 ∨ 0xffffffff < offset then
    pure false
  else if (s.file f).type ≠ .entry ∨ (s.file f).io.readable = false then
    pure false
  else if flags = 1 ∧ prot.testBit 1 ∧ (s.file f).io.writable = false then
    pure false
  else
    match object with
    | none => pure false
    | some o =>
      filedup f
      setObj o (some ⟨1, .file, some f, none, none⟩)
      if ← mmapMapCreate p addr length prot flags o offset start then
        pure true
      else
        mmapObjectPut i o
        pure false

/-- `sys_mmap` of a descriptor. -/
def sysMmap (i : Nat) (p : P) (addr : Nat) (length : Int) (prot flags : Nat)
    (fd : Fin Vm.nofile) (offset : Int) (start : Nat) (object : Option O) :
    Using P F O Bool := do
  let s ← get
  if length ≤ 0 ∨ offset < 0 then
    pure false
  else
    match s.ofile p fd with
    | none => pure false
    | some f =>
      if (s.file f).type = .device then
        pure false
      else
        vmaMapFile i p addr length.toNat prot flags f offset.toNat start object

/-- `mmap_file_fault` of page `n`, for a page fault that reaches it. -/
def mmapFileFault (i : Nat) (p : P) (n : Nat) : Using P F O Bool := do
  let s ← get
  match (Vm.mmapVmaFind (s.vmas p) (n * Vm.pgsize)).bind (s.vmas p) with
  | none => pure false
  | some v =>
    if v.type ≠ .file then
      pure false
    else if 0xffffffff < v.backing n then
      pure false
    else if v.validBytes n = 0 then
      pure true
    else
      match (v.object.bind s.obj).bind (·.file) with
      | none => Prog.halt "mmap_file_fault"
      | some f => filereadAt i f (v.backing n) (v.validBytes n)

/-- `mmap_file_writeback_page`, with the pages in memory. -/
def mmapFileWritebackPage (i : Nat) (pages : Nat → Option ByteMem) (v : Vm.Vma O) (n : Nat) :
    Using P F O Bool := do
  if v.type ≠ .file ∨ ¬ v.flags.testBit 0 ∨ ¬ v.prot.testBit 1 then
    pure true
  else
    match pages n with
    | none => pure true
    | some page =>
      if v.validBytes n = 0 then
        pure true
      else if 0xffffffff < v.backing n then
        pure false
      else
        let s ← get
        match (v.object.bind s.obj).bind (·.file) with
        | none => Prog.halt "mmap_file_writeback_page"
        | some f => filewriteAt i f page (v.backing n) (v.validBytes n)

/-- A round of the second loop of `vma_unmap`. -/
def writebackSlot (i : Nat) (p : P) (pages : Nat → Option ByteMem) (addr fin : Nat)
    (j : Fin Vm.nvma) : Using P F O Bool := do
  let s ← get
  match s.vmas p j with
  | none => pure true
  | some v =>
    if v.overlaps addr fin then
      return (← Prog.stopAt (mmapFileWritebackPage i pages v)
        (Vm.pages (max addr v.start) (min fin v.fin))).isNone
    else
      pure true

/-- A round of the last loop of `vma_unmap`; the result is `split_slot` after it. -/
def unmapSlot (i : Nat) (p : P) (addr fin : Nat) (split : Option (Fin Vm.nvma))
    (j : Fin Vm.nvma) : Using P F O (Option (Fin Vm.nvma)) := do
  let s ← get
  match s.vmas p j with
  | none => pure split
  | some old =>
    if old.overlaps addr fin then
      let start := max addr old.start
      let finish := min fin old.fin
      if start = old.start ∧ finish = old.fin then
        setVma p j none
        Prog.forEach (mmapObjectPut i) old.object.toList
        pure split
      else if start = old.start then
        setVma p j (some { old with
          start := finish, offset := old.offset + (finish - old.start) })
        pure split
      else if finish = old.fin then
        setVma p j (some { old with fin := start, validEnd := min old.validEnd start })
        pure split
      else
        match split with
        | none => Prog.halt "vma_unmap"
        | some k =>
          setVma p k (some { old with
            start := finish, offset := old.offset + (finish - old.start) })
          mmapObjectGet old.object
          setVma p j (some { old with fin := start, validEnd := min old.validEnd start })
          pure none
    else
      pure split

/-- The last loop of `vma_unmap`. -/
def unmapSlots (i : Nat) (p : P) (addr fin : Nat) :
    Option (Fin Vm.nvma) → List (Fin Vm.nvma) → Using P F O Unit
  | _, [] => pure ()
  | split, j :: js => do
    let split ← unmapSlot i p addr fin split j
    unmapSlots i p addr fin split js

/-- `sys_munmap` and `vma_unmap`, with the pages in memory; whether it succeeded. -/
def sysMunmap (i : Nat) (p : P) (pages : Nat → Option ByteMem) (addr : Nat) (length : Int) :
    Using P F O Bool := do
  let s ← get
  let vmas := s.vmas p
  if length ≤ 0 ∨ addr % Vm.pgsize ≠ 0 ∨ Vm.mmapTop ≤ addr then
    pure false
  else if Vm.mmapTop - addr < length.toNat then
    pure false
  else if Vm.mmapTop < Vm.pgroundup (addr + length.toNat) then
    pure false
  else
    let fin := Vm.pgroundup (addr + length.toNat)
    let overlapping := Vm.slots.filter fun j ↦ (vmas j).any (·.overlaps addr fin)
    let needsSplit := overlapping.any fun j ↦
      (vmas j).any fun v ↦ v.start < addr && fin < v.fin
    let split := if needsSplit then Vm.vmaFindFree vmas else none
    if overlapping.isEmpty then
      pure false
    else if needsSplit ∧ split = none then
      pure false
    else
      match ← Prog.stopAt (writebackSlot i p pages addr fin) Vm.slots with
      | some _ => pure false
      | none =>
        unmapSlots i p addr fin split Vm.slots
        pure true

/-! ### Runs -/

/-- The calls on the entry, by any process, and what path walks and the reuse of its cache slot do
in between. -/
inductive UserOp (P O : Type) where
  | open (p : P) (omode : BitVec 32) (opened : Bool)
  | write (p : P) (fd : Fin Vm.nofile) (mem : Nat → Option UInt8) (addr : Nat) (n : Int)
  | close (p : P) (fd : Fin Vm.nofile)
  | mmap (p : P) (addr : Nat) (length : Int) (prot flags : Nat) (fd : Fin Vm.nofile) (offset : Int)
      (start : Nat) (object : Option O)
  | fault (p : P) (n : Nat)
  | munmap (p : P) (pages : Nat → Option ByteMem) (addr : Nat) (length : Int)
  /-- `enext` on a directory -/
  | next (dp off : Nat)
  /-- an entry is read again from its directory -/
  | reload (k : Nat)

/-- The routine of a call. -/
def runUser (i : Nat) (ftable : List F) : UserOp P O → Using P F O Unit
  | .open p omode opened => do
    let _ ← sysOpen i ftable p omode opened
  | .write p fd mem addr n => do
    let _ ← sysWrite i p fd mem addr n
  | .close p fd => sysClose i p fd
  | .mmap p addr length prot flags fd offset start object => do
    let _ ← sysMmap i p addr length prot flags fd offset start object
  | .fault p n => do
    let _ ← mmapFileFault i p n
  | .munmap p pages addr length => do
    let _ ← sysMunmap i p pages addr length
  | .next dp off => onVolume (.next dp off)
  | .reload k => onVolume (.reload k)

/-- One call that returns. -/
def UserStep (i : Nat) (ftable : List F) (s : Users P F O) (op : UserOp P O)
    (t : Users P F O) : Prop := runUser i ftable op s = .ok ((), t)

end Files

end Xv6K210.Fs
