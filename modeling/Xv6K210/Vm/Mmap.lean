import Xv6K210.Vm.Slots

/-!
# Memory mappings

Sources `kernel/vm/mmap/mmap.c`, `mmap_anon.c`, `mmap_file.c`, `mmap_kbuf.c`, the
`mmap` operations of the devices (`kernel/devsw/kbufdev.c:19–30`, `eagerdev.c:19–31`,
`oledfb.c:159–170`) and the parts of `kernel/fs/file.c` they use. A process has `NVMA` slots for
mappings; a mapping points to an object that counts its users and owns the backing pages.
-/

namespace Xv6K210.Vm

open Xv6K210.Base Function

variable {P O F : Type} [DecidableEq P] [DecidableEq O] [DecidableEq F]

/-! ### Files -/

/-- `filedup`. -/
def filedup (f : F) : Kern P O F Unit := do
  let w ← get
  if (w.file f).ref < 1 then
    Prog.halt "filedup"
  else
    set { w with file := update w.file f { w.file f with ref := (w.file f).ref + 1 } }

/-- `fileclose`, up to the call of the close operation. -/
def fileclose (f : F) : Kern P O F Unit := do
  let w ← get
  if (w.file f).ref < 1 then
    Prog.halt "fileclose"
  else if 1 < (w.file f).ref then
    set { w with file := update w.file f { w.file f with ref := (w.file f).ref - 1 } }
  else
    set { w with
      file := update w.file f { w.file f with ref := 0, type := .unused } }

/-- `elock` may sleep. -/
def elock : Kern P O F Unit :=
  modify fun w ↦ { w with slept := w.slept || w.held }

/-- `fileread_at`, into a page; whether it did not fail. -/
def filereadAt (f : F) (pa offset n : Nat) : Kern P O F Bool := do
  let w ← get
  if (w.file f).type ≠ .entry ∨ 0xffffffff < offset then
    pure false
  else
    elock
    modify fun w ↦ { w with
      mem := update w.mem pa fun i ↦
        if i < n then (w.data (w.file f).ep).getD (offset + i) (w.mem pa i) else w.mem pa i }
    pure true

/-- `ewrite` of `n` bytes of a page, inside the file. It fails on a read-only entry. -/
def ewriteAt (ep pa offset n : Nat) : Kern P O F Bool := do
  let w ← get
  let ok := w.io.headD true
  let old := w.data ep
  let new := old.take offset ++ (List.range n).map (w.mem pa) ++ old.drop (offset + n)
  set { w with io := w.io.tail, data := if ok then update w.data ep new else w.data }
  pure ok

/-- `filewrite_at`, from a page; whether it did not fail. -/
def filewriteAt (f : F) (pa offset n : Nat) : Kern P O F Bool := do
  let w ← get
  if (w.file f).type ≠ .entry ∨ (w.file f).writable = false ∨ 0xffffffff < offset then
    pure false
  else
    elock
    let size := (w.data (w.file f).ep).length
    if size ≤ offset then pure true
    else ewriteAt (w.file f).ep pa offset (min n (size - offset))

/-! ### Slots -/

/-- Replace the mapping of a slot. -/
def setVma (p : P) (i : Fin nvma) (v : Option (Vma O)) : Kern P O F Unit :=
  modify fun w ↦ { w with
    proc := update w.proc p
      { w.proc p with vmas := update (w.proc p).vmas i v } }

/-! ### Objects -/

/-- `kbuf_create`, from the allocation of its pages on; `acc` are the pages so far. -/
def kbufPages : Nat → List Nat → Kern P O F (Option (List Nat))
  | 0, acc => pure (some acc)
  | k + 1, acc => do
    if ← kmalloc then
      match ← kallocPage with
      | none =>
        Prog.forEach kfreePage acc
        pure none
      | some pa =>
        zeroPage pa
        kbufPages k (acc ++ [pa])
    else
      Prog.forEach kfreePage acc
      pure none

/-- `kbuf_create`. -/
def kbufCreate (size : Nat) : Kern P O F (Option (List Nat)) := do
  if size = 0 then
    pure none
  else if ← kmalloc then
    kbufPages (pgroundup size / pgsize) []
  else
    pure none

/-- `mmap_object_alloc`: the place of the object. -/
def mmapObjectAlloc : Kern P O F (Option O) := do
  let w ← get
  match w.answers with
  | some (_, o) :: rest =>
    set { w with answers := rest }
    pure (if (w.obj o).isNone then some o else none)
  | none :: rest =>
    set { w with answers := rest }
    pure none
  | [] => pure none

/-- Replace an object. -/
def setObj (o : O) (x : Option (MmapObject F)) : Kern P O F Unit :=
  modify fun w ↦ { w with obj := update w.obj o x }

/-- `mmap_object_create`. -/
def mmapObjectCreate (type : VmaType) (file : Option F) (flags size : Nat) :
    Kern P O F (Option O) := do
  match ← mmapObjectAlloc with
  | none => pure none
  | some o =>
    match type with
    | .file =>
      match file with
      | none => Prog.halt "filedup"
      | some f =>
        filedup f
        setObj o (some ⟨1, .file, some f, none, none⟩)
        pure (some o)
    | .anon =>
      if flags.testBit 0 then
        if ← kmalloc then
          setObj o (some ⟨1, .anon, none, some [], none⟩)
          pure (some o)
        else
          pure none
      else
        setObj o (some ⟨1, .anon, none, none, none⟩)
        pure (some o)
    | .kbuf =>
      match ← kbufCreate size with
      | none => pure none
      | some pas =>
        match file with
        | none => Prog.halt "filedup"
        | some f =>
          filedup f
          setObj o (some ⟨1, .kbuf, some f, none, some pas⟩)
          pure (some o)

/-- `mmap_object_get`. -/
def mmapObjectGet (o : Option O) : Kern P O F Unit := do
  let w ← get
  match o.bind w.obj, o with
  | some x, some o =>
    if x.refcnt < 1 then Prog.halt "mmap_object_get"
    else setObj o (some { x with refcnt := x.refcnt + 1 })
  | _, _ => Prog.halt "mmap_object_get"

/-- The destroy operations `mmap_file_object_destroy`, `mmap_anon_object_destroy` and
`mmap_kbuf_object_destroy`. -/
def mmapObjectDestroy (x : MmapObject F) : Kern P O F Unit := do
  Prog.forEach fileclose x.file.toList
  Prog.forEach kfreePage ((x.anon.getD []).map Prod.snd)
  Prog.forEach kfreePage (x.kbuf.getD [])

/-- `mmap_object_put`. -/
def mmapObjectPut (o : O) : Kern P O F Unit := do
  let w ← get
  match w.obj o with
  | none => Prog.halt "mmap_object_put"
  | some x =>
    if x.refcnt < 1 then
      Prog.halt "mmap_object_put"
    else if x.refcnt = 1 then
      mmapObjectDestroy x
      setObj o none
    else
      setObj o (some { x with refcnt := x.refcnt - 1 })

/-- `mmap_object_put` of a pointer that may be null. -/
def putIfAny : Option O → Kern P O F Unit
  | none => pure ()
  | some o => mmapObjectPut o

/-! ### Creating a mapping -/

/-- What `mmap_map_create` puts into a slot. -/
def Vma.fresh (type : VmaType) (start length prot flags : Nat) (object : Option O)
    (offset : Nat) : Vma O where
  type := type
  start := start
  fin := start + pgroundup length
  validEnd := start + length
  offset := offset
  prot := prot
  flags := flags
  populate := false
  object := object
  ops := true

/-- `mmap_map_create`; no result is `MAP_FAILED`. -/
def mmapMapCreate (p : P) (addr length prot flags : Nat) (type : VmaType) (object : Option O)
    (offset : Nat) : Kern P O F (Option Nat) := do
  let w ← get
  if addr ≠ 0 ∨ length = 0 ∨ mmapTop < length then
    pure none
  else if 8 ≤ prot then
    pure none
  else if prot.testBit 1 ∧ ¬ prot.testBit 0 then
    pure none
  else if flags % 4 ≠ 2 ∧ flags % 4 ≠ 1 then
    pure none
  else
    match vmaFindFree (w.proc p).vmas with
    | none => pure none
    | some i =>
      let start := vmaFindAddress (w.proc p).sz (w.proc p).vmas (pgroundup length)
      if start = 0 then
        pure none
      else
        setVma p i (some (.fresh type start length prot flags object offset))
        pure (some start)

/-- `enum vm_fault_access`. -/
inductive Access where
  | read
  | write
  | exec
  deriving DecidableEq, Repr

/-- `mmap_access_allowed`. -/
def Vma.allows (v : Vma O) : Access → Bool
  | .read => v.prot.testBit 0
  | .write => v.prot.testBit 1
  | .exec => v.prot.testBit 2

/-- The entry bits that a mapping asks for. -/
def Vma.perm (v : Vma O) : Perm :=
  ⟨v.prot.testBit 0, v.prot.testBit 1, v.prot.testBit 2, true, false⟩

/-! ### Fault operations -/

/-- The bytes of a page that lie below `valid_end`. -/
def Vma.validBytes (v : Vma O) (n : Nat) : Nat :=
  if v.validEnd < n * pgsize + pgsize then v.validEnd - n * pgsize else pgsize

/-- The offset in the backing of a page. -/
def Vma.backing (v : Vma O) (n : Nat) : Nat := v.offset + (n * pgsize - v.start)

/-- `mmap_file_fault`. -/
def mmapFileFault (v : Vma O) (n : Nat) : Kern P O F (Option Nat) := do
  match ← kallocPage with
  | none => pure none
  | some pa =>
    zeroPage pa
    if 0xffffffff < v.backing n then
      kfreePage pa
      pure none
    else if v.validBytes n = 0 then
      pure (some pa)
    else
      let w ← get
      match (v.object.bind w.obj).bind (·.file) with
      | none => Prog.halt "mmap_file_fault"
      | some f =>
        if ← filereadAt f pa (v.backing n) (v.validBytes n) then
          pure (some pa)
        else
          kfreePage pa
          pure none

/-- The page of an index in a list of shared pages. -/
def anonFind (l : List (Nat × Nat)) (index : Nat) : Option Nat :=
  (l.find? fun e ↦ e.1 == index).map Prod.snd

/-- The first region of `anon_page_get` under the lock. -/
def anonLookup (o : O) (index : Nat) : Kern P O F (Option Nat) := do
  let w ← get
  match (w.obj o).bind fun x ↦ x.anon.bind (anonFind · index) with
  | none => pure none
  | some pa =>
    kaddquota pa
    pure (some pa)

/-- What `anon_page_get` does between its two regions: a zeroed page, and room for a list
element. -/
def anonCandidate : Kern P O F (Option Nat) := do
  match ← kallocPage with
  | none => pure none
  | some pa =>
    zeroPage pa
    if ← kmalloc then
      pure (some pa)
    else
      kfreePage pa
      pure none

/-- The second region of `anon_page_get` under the lock: the index is looked up again, and if
it is still missing the candidate goes into the list. -/
def anonInsert (o : O) (index pa : Nat) : Kern P O F Nat := do
  let w ← get
  match w.obj o with
  | none => Prog.halt "anon_page_get"
  | some x =>
    match anonFind (x.anon.getD []) index with
    | some found =>
      kaddquota found
      kfreePage pa
      pure found
    | none =>
      setObj o (some { x with anon := some ((index, pa) :: x.anon.getD []) })
      kaddquota pa
      pure pa

/-- `anon_page_get`. -/
def anonPageGet (o : O) (index : Nat) : Kern P O F (Option Nat) := do
  match ← anonLookup o index with
  | some pa => pure (some pa)
  | none =>
    match ← anonCandidate with
    | none => pure none
    | some pa => return some (← anonInsert o index pa)

/-- `mmap_anon_fault`. -/
def mmapAnonFault (v : Vma O) (n : Nat) : Kern P O F (Option Nat) := do
  if v.flags.testBit 0 then
    match v.object with
    | none => Prog.halt "mmap_anon_fault"
    | some o => anonPageGet o (v.backing n / pgsize)
  else
    match ← kallocPage with
    | none => pure none
    | some pa =>
      zeroPage pa
      pure (some pa)

/-- `mmap_kbuf_fault`. -/
def mmapKbufFault (v : Vma O) (n : Nat) : Kern P O F (Option Nat) := do
  let w ← get
  match (v.object.bind w.obj).bind fun x ↦ if x.type = .kbuf then x.kbuf else none with
  | none => pure none
  | some pas =>
    match pas[v.backing n / pgsize]? with
    | none => pure none
    | some pa =>
      kaddquota pa
      pure (some pa)

/-- `vma->ops->fault`. -/
def vmaFault (v : Vma O) (n : Nat) : Kern P O F (Option Nat) :=
  match v.type with
  | .file => mmapFileFault v n
  | .anon => mmapAnonFault v n
  | .kbuf => mmapKbufFault v n

/-- `enum vm_fault_result`. -/
inductive FaultResult where
  | resolved
  | invalid
  | nomem
  | backing
  deriving DecidableEq, Repr

/-- `mmap_fault_page`. -/
def mmapFaultPage (p : P) (v : Vma O) (n : Nat) (access : Access) : Kern P O F FaultResult := do
  if v.contains (n * pgsize) = false ∨ v.allows access = false then
    pure .invalid
  else
    match ← walk (.user p) n with
    | some _ => pure .invalid
    | none =>
      if v.ops = false then
        pure .backing
      else
        match ← vmaFault v n with
        | none => pure .backing
        | some pa =>
          if ← mappages (.user p) n pa v.perm then
            if ← vmSyncUserPage p n then
              pure .resolved
            else
              uvmunmap (.user p) [n] true
              pure .nomem
          else
            kfreePage pa
            pure .nomem

/-! ### Removing mappings -/

/-- A round of `vma_unmap_pages`. -/
def vmaUnmapPage (p : P) (n : Nat) : Kern P O F Unit := do
  uvmunmap (.kern p) [n] false
  uvmunmap (.user p) [n] true

/-- `vma_unmap_pages`. -/
def vmaUnmapPages (p : P) (start fin : Nat) : Kern P O F Unit :=
  Prog.forEach (vmaUnmapPage p) (pages start fin)

/-- A round of `mmap_populate`. -/
def populatePage (p : P) (v : Vma O) (n : Nat) : Kern P O F Bool := do
  match ← walk (.user p) n with
  | some _ => pure true
  | none =>
    match ← vmaFault v n with
    | none => pure false
    | some pa =>
      if ← mappages (.user p) n pa v.perm then
        if ← vmSyncUserPage p n then pure true
        else Prog.halt "mmap_populate: sync user page"
      else
        kfreePage pa
        pure false

/-- `mmap_populate`. -/
def mmapPopulate (p : P) (i : Fin nvma) (v : Vma O) : Kern P O F Bool := do
  if v.ops = false then
    pure false
  else
    match ← Prog.stopAt (populatePage p v) (pages v.start v.fin) with
    | none =>
      setVma p i (some { v with ops := false })
      pure true
    | some n =>
      vmaUnmapPages p v.start (n * pgsize)
      pure false

/-- `mmap_file_writeback_page`. -/
def mmapFileWritebackPage (p : P) (v : Vma O) (n : Nat) : Kern P O F Bool := do
  if v.type ≠ .file ∨ ¬ v.flags.testBit 0 ∨ ¬ v.prot.testBit 1 then
    pure true
  else
    match ← walk (.user p) n with
    | none => pure true
    | some e =>
      if v.validBytes n = 0 then
        pure true
      else if 0xffffffff < v.backing n then
        pure false
      else
        let w ← get
        match (v.object.bind w.obj).bind (·.file) with
        | none => Prog.halt "mmap_file_writeback_page"
        | some f => filewriteAt f e.pa (v.backing n) (v.validBytes n)

/-- `mmap_file_writeback_range`. -/
def mmapFileWritebackRange (p : P) (v : Vma O) (start fin : Nat) : Kern P O F Bool := do
  if v.type ≠ .file then
    pure true
  else
    return (← Prog.stopAt (mmapFileWritebackPage p v) (pages start fin)).isNone

/-- A round of the second loop of `vma_unmap`. -/
def writebackSlot (p : P) (addr fin : Nat) (i : Fin nvma) : Kern P O F Bool := do
  let w ← get
  match (w.proc p).vmas i with
  | none => pure true
  | some v =>
    if v.overlaps addr fin then
      mmapFileWritebackRange p v (max addr v.start) (min fin v.fin)
    else
      pure true

/-- A round of the last loop of `vma_unmap`; the result is `split_slot` after it. -/
def unmapSlot (p : P) (addr fin : Nat) (split : Option (Fin nvma)) (i : Fin nvma) :
    Kern P O F (Option (Fin nvma)) := do
  let w ← get
  match (w.proc p).vmas i with
  | none => pure split
  | some old =>
    if old.overlaps addr fin then
      let start := max addr old.start
      let finish := min fin old.fin
      vmaUnmapPages p start finish
      if start = old.start ∧ finish = old.fin then
        setVma p i none
        putIfAny old.object
        pure split
      else if start = old.start then
        setVma p i (some { old with
          start := finish, offset := old.offset + (finish - old.start) })
        pure split
      else if finish = old.fin then
        setVma p i (some { old with fin := start, validEnd := min old.validEnd start })
        pure split
      else
        match split with
        | none => Prog.halt "vma_unmap"
        | some j =>
          setVma p j (some { old with
            start := finish, offset := old.offset + (finish - old.start) })
          mmapObjectGet old.object
          setVma p i (some { old with fin := start, validEnd := min old.validEnd start })
          pure none
    else
      pure split

/-- The last loop of `vma_unmap`. -/
def unmapSlots (p : P) (addr fin : Nat) : Option (Fin nvma) → List (Fin nvma) → Kern P O F Unit
  | _, [] => pure ()
  | split, i :: is => do
    let split ← unmapSlot p addr fin split i
    unmapSlots p addr fin split is

/-- `vma_unmap`; whether it succeeded. -/
def vmaUnmap (p : P) (addr length : Nat) : Kern P O F Bool := do
  let w ← get
  let vmas := (w.proc p).vmas
  if length = 0 ∨ addr % pgsize ≠ 0 ∨ mmapTop ≤ addr then
    pure false
  else if mmapTop - addr < length then
    pure false
  else if mmapTop < pgroundup (addr + length) then
    pure false
  else
    let fin := pgroundup (addr + length)
    let overlapping := slots.filter fun i ↦ (vmas i).any (·.overlaps addr fin)
    let needsSplit := overlapping.any fun i ↦
      (vmas i).any fun v ↦ v.start < addr && fin < v.fin
    let split := if needsSplit then vmaFindFree vmas else none
    if overlapping.isEmpty then
      pure false
    else if needsSplit ∧ split = none then
      pure false
    else
      match ← Prog.stopAt (writebackSlot p addr fin) slots with
      | some _ => pure false
      | none =>
        unmapSlots p addr fin split slots
        pure true

/-- A round of `vma_destroy_all`. -/
def destroySlot (p : P) (i : Fin nvma) : Kern P O F Unit := do
  let w ← get
  match (w.proc p).vmas i with
  | none => pure ()
  | some v =>
    Prog.doIf (w.pt (.user p)).root.isSome do
      let _ ← mmapFileWritebackRange p v v.start v.fin
    Prog.doIf ((w.pt (.user p)).root.isSome ∧ (w.pt (.kern p)).root.isSome)
      (vmaUnmapPages p v.start v.fin)
    putIfAny v.object
    setVma p i none

/-- `vma_destroy_all`. -/
def vmaDestroyAll (p : P) : Kern P O F Unit := Prog.forEach (destroySlot p) slots

/-! ### Fork -/

/-- A round of the first loop of `vma_fork`. -/
def forkSlot (p c : P) (i : Fin nvma) : Kern P O F Unit := do
  let w ← get
  match (w.proc p).vmas i with
  | none => pure ()
  | some v =>
    setVma c i (some v)
    mmapObjectGet v.object

/-- `(flags | PTE_COW) & ~PTE_W`. -/
def Perm.share (perm : Perm) : Perm := { perm with w := false, cow := true }

/-- The entry of the parent is marked, in both of its tables. -/
def forkMark (p : P) (n : Nat) (e : Pte) : Kern P O F Unit := do
  setLeaf (.user p) n e
  if ← upg2ukpg (.user p) (.kern p) [n] then pure ()
  else Prog.halt "vma_fork: parent upg2ukpg"

/-- A round of the inner loop of `vma_fork`. -/
def forkPage (p c : P) (v : Vma O) (n : Nat) : Kern P O F Bool := do
  match ← walk (.user p) n with
  | none => pure true
  | some e =>
    let perm := if v.flags.testBit 1 ∧ e.perm.w then e.perm.share else e.perm
    Prog.doIf (v.flags.testBit 1 ∧ e.perm.w) (forkMark p n ⟨e.pa, perm⟩)
    if ← mappages (.user c) n e.pa perm then
      kaddquota e.pa
      if ← upg2ukpg (.user c) (.kern c) [n] then pure true
      else Prog.halt "vma_fork: child upg2ukpg"
    else
      pure false

/-- A round of the second loop of `vma_fork`. -/
def forkPages (p c : P) (i : Fin nvma) : Kern P O F Bool := do
  let w ← get
  match (w.proc p).vmas i with
  | none => pure true
  | some v => return (← Prog.stopAt (forkPage p c v) (pages v.start v.fin)).isNone

/-- `vma_fork`; whether it succeeded. -/
def vmaFork (p c : P) : Kern P O F Bool := do
  Prog.forEach (forkSlot p c) slots
  match ← Prog.stopAt (forkPages p c) slots with
  | none => pure true
  | some _ =>
    vmaDestroyAll c
    pure false

/-! ### The three kinds of mappings -/

/-- `vma_map_anon`. -/
def vmaMapAnon (p : P) (addr length prot flags : Nat) : Kern P O F (Option Nat) := do
  if flags ≠ 0x22 ∧ flags ≠ 0x21 then
    pure none
  else
    match ← mmapObjectCreate .anon none flags 0 with
    | none => pure none
    | some o =>
      match ← mmapMapCreate p addr length prot flags .anon (some o) 0 with
      | none =>
        mmapObjectPut o
        pure none
      | some start => pure (some start)

/-- `vma_map_file`. -/
def vmaMapFile (p : P) (addr length prot flags : Nat) (f : F) (offset : Nat) :
    Kern P O F (Option Nat) := do
  let w ← get
  if flags ≠ 2 ∧ flags ≠ 1 then
    pure none
  else if offset % pgsize ≠ 0 ∨ 0xffffffff < offset then
    pure none
  else if (w.file f).type ≠ .entry ∨ (w.file f).readable = false then
    pure none
  else if flags = 1 ∧ prot.testBit 1 ∧ (w.file f).writable = false then
    pure none
  else
    match ← mmapObjectCreate .file (some f) flags 0 with
    | none => pure none
    | some o =>
      match ← mmapMapCreate p addr length prot flags .file (some o) offset with
      | none =>
        mmapObjectPut o
        pure none
      | some start => pure (some start)

/-- `OLEDFB_FB_SIZE`. -/
def oledfbSize : Nat := 1024

/-- The `mmap` operations of the devices: refused, or accepted with `populate`. -/
def DevMmap.mmap (d : DevMmap) (v : Vma O) (offset : Nat) : Option Bool :=
  let length := v.validEnd - v.start
  match d with
  | .absent => none
  | .kbufdev =>
    if v.flags ≠ 1 ∨ v.prot.testBit 2 then none
    else if 2 * pgsize < offset + length then none
    else some false
  | .eagerdev =>
    if v.flags ≠ 1 ∨ v.prot.testBit 2 then none
    else if 2 * pgsize < offset + length then none
    else some true
  | .oledfb =>
    if offset ≠ 0 ∨ length ≠ oledfbSize ∨ v.flags ≠ 1 ∨ v.prot.testBit 2 then none
    else some true

/-- `vma_map_device`, from the return of the device's `mmap` on. -/
def mapDeviceObject (p : P) (i : Fin nvma) (v : Vma O) (start length : Nat) (f : F)
    (offset : Nat) (populate : Bool) : Kern P O F (Option Nat) := do
  setVma p i (some { v with populate := populate })
  match ← mmapObjectCreate .kbuf (some f) v.flags (offset + (v.validEnd - v.start)) with
  | none =>
    let _ ← vmaUnmap p start length
    pure none
  | some o =>
    let v := { v with populate := populate, object := some o }
    setVma p i (some v)
    if populate then
      if ← mmapPopulate p i v then
        pure (some start)
      else
        let _ ← vmaUnmap p start length
        pure none
    else
      pure (some start)

/-- `vma_map_device`. -/
def vmaMapDevice (p : P) (addr length prot flags : Nat) (f : F) (d : DevMmap) (offset : Nat) :
    Kern P O F (Option Nat) := do
  let w ← get
  if flags ≠ 1 ∨ d = .absent ∨ prot.testBit 2 then
    pure none
  else if prot.testBit 0 ∧ (w.file f).readable = false then
    pure none
  else if prot.testBit 1 ∧ (w.file f).writable = false then
    pure none
  else
    match ← mmapMapCreate p addr length prot flags .kbuf none offset with
    | none => pure none
    | some start =>
      let w ← get
      match mmapVmaFind (w.proc p).vmas start with
      | none =>
        let _ ← vmaUnmap p start length
        pure none
      | some i =>
        match (w.proc p).vmas i with
        | none => pure none
        | some v =>
          if v.ops = false ∨ offset % pgsize ≠ 0 ∨ v.validEnd - v.start = 0 then
            let _ ← vmaUnmap p start length
            pure none
          else
            match d.mmap v offset with
            | none =>
              let _ ← vmaUnmap p start length
              pure none
            | some populate => mapDeviceObject p i v start length f offset populate

/-- `sys_mmap`; `fd` and `offset` as they were passed. -/
def sysMmap (p : P) (addr : Nat) (length : Int) (prot flags : Nat) (fd offset : Int) :
    Kern P O F (Option Nat) := do
  let w ← get
  if length ≤ 0 ∨ offset < 0 then
    pure none
  else if flags.testBit 5 then
    if fd ≠ -1 ∨ offset ≠ 0 then pure none
    else vmaMapAnon p addr length.toNat prot flags
  else if h : 0 ≤ fd ∧ fd.toNat < nofile then
    match (w.proc p).ofile ⟨fd.toNat, h.2⟩ with
    | none => pure none
    | some f =>
      match (w.file f).type with
      | .device d => vmaMapDevice p addr length.toNat prot flags f d offset.toNat
      | _ => vmaMapFile p addr length.toNat prot flags f offset.toNat
  else
    pure none

/-- `sys_munmap`. -/
def sysMunmap (p : P) (addr : Nat) (length : Int) : Kern P O F Bool :=
  if length ≤ 0 then pure false else vmaUnmap p addr length.toNat

end Xv6K210.Vm
