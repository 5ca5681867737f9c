import Xv6K210.Base.LittleEndian
import Xv6K210.Base.Runs
import Xv6K210.Vm.Mmap

/-!
# The memory of processes

Sources `kernel/vm/vm.c:346–494,580–639`, `kernel/vm/vmfault.c`,
`kernel/proc/proc.c:112–236,404–467,488–526,555–624,684–827`, `kernel/proc/exec.c` and
`kernel/syscall/sysproc.c:52–85`. The system calls and page faults that change the memory of a
process are the steps; any number of processes take them in any order, and each step comes with
the answers to its allocations.
-/

namespace Xv6K210.Vm

open Xv6K210.Base Function

variable {P O F : Type} [DecidableEq P] [DecidableEq O] [DecidableEq F]

/-- What the linker and the board fix: the pages of the trampolines, the mappings that every
kernel table gets from `ukvminit`, and the first process. -/
structure Boot (P : Type) where
  trampoline : Nat
  sigtramp : Nat
  kmaps : List (Nat × Pte)
  init : P
  /-- the kernel maps nothing below the end of user memory, and everything readable -/
  above : ∀ m ∈ kmaps, maxuva ≤ m.1 * pgsize ∧ m.2.perm.r = true

/-- `TRAMPOLINE`, as a page number. -/
def trampolinePage : Nat := maxpage - 1

/-- `TRAPFRAME`, as a page number. -/
def trapframePage : Nat := maxpage - 2

/-- `SIGTRAMP`, as a page number. -/
def sigtrampPage : Nat := maxpage - 3

/-- `KSTACK(0)`, as a page number. -/
def kstackPage : Nat := maxpage - 3

/-- The pages of the user stack, without the guard page. -/
def stackPages : List Nat := pages userStackStart userStackTop

/-- Change a process. -/
def setProc (p : P) (f : Proc P O F → Proc P O F) : Kern P O F Unit :=
  modify fun w ↦ { w with proc := update w.proc p (f (w.proc p)) }

/-- `acquire` or `release` of a process lock. -/
def setHeld (b : Bool) : Kern P O F Unit := modify fun w ↦ { w with held := b }

/-! ### Sizes -/

/-- `uvmdealloc`; `ukvmdealloc` is the same with `doFree` off. -/
def uvmdealloc (t : Tbl P) (oldsz newsz : Nat) (doFree : Bool) : Kern P O F Nat := do
  if oldsz ≤ newsz then
    pure oldsz
  else
    uvmunmap t (pages (pgroundup newsz) (pgroundup oldsz)) doFree
    pure newsz

/-- A round of `uvmalloc`. -/
def uvmallocPage (t : Tbl P) (n : Nat) : Kern P O F Bool := do
  match ← kallocPage with
  | none => pure false
  | some pa =>
    zeroPage pa
    if ← mappages t n pa ⟨true, true, true, true, false⟩ then
      pure true
    else
      kfreePage pa
      pure false

/-- `uvmalloc`; the new size, or 0. -/
def uvmalloc (t : Tbl P) (oldsz newsz : Nat) : Kern P O F Nat := do
  if newsz < oldsz then
    pure oldsz
  else if maxuva < newsz then
    pure 0
  else
    match ← Prog.stopAt (uvmallocPage t) (pages (pgroundup oldsz) newsz) with
    | none => pure newsz
    | some n =>
      let _ ← uvmdealloc t (n * pgsize) (pgroundup oldsz) true
      pure 0

/-- `sys_sbrk`; no result is -1. -/
def sysSbrk (p : P) (n : Int) : Kern P O F (Option Nat) := do
  let w ← get
  let addr := (w.proc p).sz
  if 0 ≤ n then
    let limit := vmaHeapLimit (w.proc p).vmas
    if limit < addr ∨ limit - addr < n.toNat then
      pure none
    else
      setProc p fun q ↦ { q with sz := addr + n.toNat }
      pure (some addr)
  else
    let shrink := (-n).toNat
    if addr < shrink then
      pure none
    else
      let _ ← uvmdealloc (.kern p) addr (addr - shrink) false
      let sz ← uvmdealloc (.user p) addr (addr - shrink) true
      setProc p fun q ↦ { q with sz := sz }
      pure (some addr)

/-! ### Page faults -/

/-- `uvm_fault_alloc`. -/
def uvmFaultAlloc (p : P) (n : Nat) (perm : Perm) : Kern P O F Bool := do
  if maxuva ≤ n * pgsize then
    pure false
  else
    match ← walk (.user p) n with
    | some _ => pure false
    | none =>
      match ← kallocPage with
      | none => pure false
      | some pa =>
        zeroPage pa
        if ← mappages (.user p) n pa perm then
          if ← vmSyncUserPage p n then
            pure true
          else
            uvmunmap (.user p) [n] true
            pure false
        else
          kfreePage pa
          pure false

/-- `uvmcowmalloc`. The table pages of a valid entry exist, so its `mappages` is a store. -/
def uvmcowmalloc (p : P) (n : Nat) : Kern P O F Bool := do
  match ← walk (.user p) n with
  | none => pure false
  | some e =>
    if maxuva ≤ n * pgsize ∨ e.perm.u = false then
      pure false
    else
      let w ← get
      if w.quota e.pa = 1 then
        setLeaf (.user p) n ⟨e.pa, { e.perm with w := true, cow := false }⟩
        if ← vmSyncUserPage p n then pure true
        else Prog.halt "uvmcowmalloc: sync user page"
      else
        match ← kallocPage with
        | none => pure false
        | some pa =>
          copyPage pa e.pa
          setLeaf (.user p) n ⟨pa, { e.perm with w := true, cow := false }⟩
          if ← vmSyncUserPage p n then
            kfreePage e.pa
            pure true
          else
            Prog.halt "uvmcowmalloc: sync user page"

/-- `vm_fault_pte_allows`. -/
def Perm.allows (perm : Perm) : Access → Bool
  | .read => perm.u && perm.r
  | .write => perm.u && perm.w
  | .exec => perm.u && perm.x

/-- `vm_fault_present`. -/
def vmFaultPresent (p : P) (n : Nat) (e : Pte) (access : Access) : Kern P O F FaultResult := do
  if access = .write ∧ e.perm.cow then
    if e.perm.u = false then pure .invalid
    else if ← uvmcowmalloc p n then pure .resolved
    else pure .nomem
  else if e.perm.allows access = false then
    pure .invalid
  else if ← vmSyncUserPage p n then
    pure .resolved
  else
    pure .nomem

/-- `vm_resolve_fault`: the areas are mappings, then the heap, then the stack. -/
def vmResolveFault (p : P) (address : Nat) (access : Access) : Kern P O F FaultResult := do
  let w ← get
  let n := address / pgsize
  if maxuva ≤ address then
    pure .invalid
  else
    match (mmapVmaFind (w.proc p).vmas address).bind (w.proc p).vmas with
    | some v =>
      if v.allows access = false then
        pure .invalid
      else
        match ← walk (.user p) n with
        | some e => vmFaultPresent p n e access
        | none => mmapFaultPage p v n access
    | none =>
      if address < (w.proc p).sz then
        match ← walk (.user p) n with
        | some e => vmFaultPresent p n e access
        | none =>
          if ← uvmFaultAlloc p n ⟨true, true, true, true, false⟩ then pure .resolved
          else pure .nomem
      else if userStackStart ≤ address ∧ access ≠ .exec then
        match ← walk (.user p) n with
        | some e => vmFaultPresent p n e access
        | none =>
          if ← uvmFaultAlloc p n ⟨true, true, false, true, false⟩ then pure .resolved
          else pure .nomem
      else
        pure .invalid

/-! ### Making and freeing address spaces -/

/-- `uvm_stack_unmap`. -/
def uvmStackUnmap (t : Tbl P) (doFree : Bool) : Kern P O F Unit := uvmunmap t stackPages doFree

/-- `uvm_stack_sync`. -/
def uvmStackSync (u k : Tbl P) : Kern P O F Unit := do
  if ← upg2ukpg u k stackPages then pure ()
  else Prog.halt "uvm_stack_sync: upg2ukpg"

/-- `uvmfree`. -/
def uvmfree (t : Tbl P) (sz : Nat) : Kern P O F Unit := do
  Prog.doIf (0 < sz) (uvmunmap t (pages 0 (pgroundup sz)) true)
  freewalk t

/-- `proc_pagetable`. -/
def procPagetable (b : Boot P) (t : Tbl P) (trapframe : Nat) : Kern P O F Bool := do
  if ← uvmcreate t then
    if ← mappages t trampolinePage b.trampoline ⟨true, false, true, false, false⟩ then
      if ← mappages t trapframePage trapframe ⟨true, true, false, false, false⟩ then
        if ← mappages t sigtrampPage b.sigtramp ⟨true, false, true, true, false⟩ then
          pure true
        else
          uvmunmap t [trampolinePage] false
          uvmunmap t [trapframePage] false
          uvmfree t 0
          pure false
      else
        uvmunmap t [trampolinePage] false
        uvmfree t 0
        pure false
    else
      uvmfree t 0
      pure false
  else
    pure false

/-- `proc_freepagetable`. -/
def procFreepagetable (t : Tbl P) (sz : Nat) : Kern P O F Unit := do
  uvmStackUnmap t true
  uvmunmap t [trampolinePage] false
  uvmunmap t [trapframePage] false
  uvmunmap t [sigtrampPage] false
  uvmfree t sz

/-- `proc_freekpagetable`. -/
def procFreekpagetable (b : Boot P) (t : Tbl P) (kstack sz : Nat) : Kern P O F Unit := do
  uvmunmap t (b.kmaps.map Prod.fst) false
  uvmunmap t (pages 0 (pgroundup sz)) false
  uvmStackUnmap t false
  uvmunmap t [kstack] true
  uvmfree t 0

/-- `ukvminit`. -/
def ukvminit (b : Boot P) (t : Tbl P) : Kern P O F Bool := do
  if ← uvmcreate t then
    match ← Prog.stopAt (fun m : Nat × Pte ↦ mappages t m.1 m.2.pa m.2.perm) b.kmaps with
    | none => pure true
    | some _ =>
      ukvmfree t
      pure false
  else
    pure false

/-- `freeprocvm`. -/
def freeprocvm (b : Boot P) (p : P) : Kern P O F Unit := do
  let w ← get
  Prog.forEach kfreePage (w.proc p).trapframe.toList
  Prog.doIf (w.pt (.user p)).root.isSome (procFreepagetable (.user p) (w.proc p).sz)
  Prog.doIf (w.pt (.kern p)).root.isSome
    (procFreekpagetable b (.kern p) (w.proc p).kstack (w.proc p).sz)
  setProc p fun q ↦ { q with trapframe := none, kstack := 0, sz := 0 }

/-- `freeproc`. -/
def freeproc (b : Boot P) (p : P) : Kern P O F Unit := do
  vmaDestroyAll p
  freeprocvm b p
  setProc p fun q ↦ { q with state := .unused, parent := none }

/-- `allocproc`, on the slot `p`. -/
def allocproc (b : Boot P) (p : P) : Kern P O F Bool := do
  match ← kallocPage with
  | none => pure false
  | some tf =>
    setProc p fun q ↦ { q with trapframe := some tf }
    if ← procPagetable b (.user p) tf then
      if ← ukvminit b (.kern p) then
        match ← kallocPage with
        | none =>
          freeproc b p
          pure false
        | some pa =>
          if ← mappages (.kern p) kstackPage pa ⟨true, true, false, false, false⟩ then
            setProc p fun q ↦ { q with kstack := kstackPage, vmas := fun _ ↦ none }
            pure true
          else
            kfreePage pa
            ukvmfree (.kern p)
            freeproc b p
            pure false
      else
        freeproc b p
        pure false
    else
      freeproc b p
      pure false

/-- `uvm_stack_init`. -/
def uvmStackInit (t : Tbl P) : Kern P O F Bool := do
  match ← kallocPage with
  | none => pure false
  | some pa =>
    zeroPage pa
    if ← mappages t (userStackTop / pgsize - 1) pa ⟨true, true, false, true, false⟩ then
      pure true
    else
      kfreePage pa
      pure false

/-- `userinit`: the first process, with one page of code. -/
def userinit (b : Boot P) (code : Nat → UInt8) : Kern P O F Unit := do
  if ← allocproc b b.init then
    match ← kallocPage with
    | none => Prog.halt "inituvm"
    | some pa =>
      modify fun w ↦ { w with mem := update w.mem pa code }
      if ← mappages (.user b.init) 0 pa ⟨true, true, true, true, false⟩ then
        if ← uvmStackInit (.user b.init) then
          setProc b.init fun q ↦ { q with sz := pgsize, state := .live }
          if ← upg2ukpg (.user b.init) (.kern b.init) (pages 0 pgsize) then
            uvmStackSync (.user b.init) (.kern b.init)
          else
            Prog.halt "userinit: upg2ukpg"
        else
          Prog.halt "userinit: stack"
      else
        Prog.halt "inituvm"
  else
    Prog.halt "userinit"

/-! ### Fork -/

/-- A round of `uvmcopy_range`. -/
def uvmcopyPage (old new : Tbl P) (n : Nat) : Kern P O F Bool := do
  match ← walk old n with
  | none => pure true
  | some e =>
    let perm := if e.perm.w then e.perm.share else e.perm
    Prog.doIf e.perm.w (setLeaf old n ⟨e.pa, perm⟩)
    if ← mappages new n e.pa perm then
      kaddquota e.pa
      pure true
    else
      pure false

/-- `uvmcopy_range`. -/
def uvmcopyRange (old new : Tbl P) (start fin : Nat) : Kern P O F Bool := do
  match ← Prog.stopAt (uvmcopyPage old new) (pages start fin) with
  | none => pure true
  | some n =>
    uvmunmap new (pages start (n * pgsize)) true
    pure false

/-- `fork`, from `uvmcopy` to the last step that can fail. -/
def forkCopy (p c : P) : Kern P O F Bool := do
  let w ← get
  let sz := (w.proc p).sz
  if ← uvmcopyRange (.user p) (.user c) 0 sz then
    setProc c fun q ↦ { q with sz := sz }
    if ← uvmcopyRange (.user p) (.user c) userStackStart userStackTop then
      if ← vmaFork p c then
        if ← upg2ukpg (.user c) (.kern c) (pages 0 sz) then
          upg2ukpg (.user c) (.kern c) stackPages
        else
          pure false
      else
        pure false
    else
      pure false
  else
    pure false

/-- The parent's kernel table after its user entries were marked. -/
def forkSync (p : P) : Kern P O F Unit := do
  let w ← get
  if ← upg2ukpg (.user p) (.kern p) (pages 0 (w.proc p).sz) then
    uvmStackSync (.user p) (.kern p)
  else
    Prog.halt "fork: parent upg2ukpg"

/-- A round of the loop of `fork` over the open files. -/
def forkFile (p c : P) (fd : Fin nofile) : Kern P O F Unit := do
  let w ← get
  match (w.proc p).ofile fd with
  | none => pure ()
  | some f =>
    filedup f
    setProc c fun q ↦ { q with ofile := update q.ofile fd (some f) }

/-- `fork`, with the child in the slot `c`; whether it succeeded. -/
def fork (b : Boot P) (p c : P) : Kern P O F Bool := do
  setHeld true
  if ← allocproc b c then
    if ← forkCopy p c then
      Prog.forEach (forkFile p c) (List.finRange nofile)
      setProc c fun q ↦ { q with state := .live, parent := some p }
      setHeld false
      forkSync p
      pure true
    else
      forkSync p
      freeproc b c
      setHeld false
      pure false
  else
    setHeld false
    pure false

/-! ### Exec -/

/-- A program header, and what reading it and its segment yields. -/
structure Seg where
  /-- the header could be read -/
  readOk : Bool
  /-- its type is `ELF_PROG_LOAD` -/
  load : Bool
  vaddr : Nat
  memsz : Nat
  filesz : Nat
  /-- the segment could be read, and its bytes -/
  loadOk : Bool
  byte : Nat → UInt8

/-- The arguments of `exec`: the file as far as it is read, and `argv`. -/
structure Image where
  /-- the path names an entry, and its header is that of an executable -/
  headerOk : Bool
  segs : List Seg
  argv : List (List UInt8)

/-- `MAXARG`. -/
def maxarg : Nat := 32

/-- A round of `loadseg`. -/
def loadsegPage (t : Tbl P) (s : Seg) (i : Nat) : Kern P O F Unit := do
  match ← walk t (s.vaddr / pgsize + i) with
  | none => Prog.halt "loadseg: address should exist"
  | some e =>
    modify fun w ↦ { w with
      mem := update w.mem e.pa fun j ↦
        if i * pgsize + j < s.filesz then s.byte (i * pgsize + j) else w.mem e.pa j }

/-- `loadseg`. -/
def loadseg (t : Tbl P) (s : Seg) : Kern P O F Bool := do
  if s.loadOk then
    Prog.forEach (loadsegPage t s) (List.range ((s.filesz + pgsize - 1) / pgsize))
    pure true
  else
    pure false

/-- The loop of `exec` over the program headers: whether it went through, and the size. -/
def loadSegs (t : Tbl P) : Nat → List Seg → Kern P O F (Bool × Nat)
  | sz, [] => pure (true, sz)
  | sz, s :: ss => do
    if s.readOk = false then
      pure (false, sz)
    else if s.load = false then
      loadSegs t sz ss
    else if s.memsz < s.filesz ∨ maxuva ≤ s.vaddr ∨ maxuva - s.vaddr < s.memsz then
      pure (false, sz)
    else
      let sz2 ← uvmalloc t sz (s.vaddr + s.memsz)
      if sz2 = 0 then
        pure (false, sz)
      else if s.vaddr % pgsize ≠ 0 then
        pure (false, sz2)
      else if ← loadseg t s then
        loadSegs t sz2 ss
      else
        pure (false, sz2)

/-- The lowest address of the top page of the stack. -/
def stackbase : Nat := userStackTop - pgsize

/-- Push bytes below `sp`, aligned to 16. -/
def pushBytes (sp len : Nat) : Nat := (sp - len) / 16 * 16

/-- The loop of `exec` that pushes the argument strings: the stack pointer, the addresses of the
strings, and what was written. -/
def pushArgs : List (List UInt8) → Nat → List Nat → List (Nat × List UInt8) →
    Option (Nat × List Nat × List (Nat × List UInt8))
  | [], sp, ustack, out => some (sp, ustack, out)
  | arg :: args, sp, ustack, out =>
    let sp' := pushBytes sp (arg.length + 1)
    if maxarg ≤ ustack.length then none
    else if sp' < stackbase then none
    else pushArgs args sp' (ustack ++ [sp']) (out ++ [(sp', arg ++ [0])])

/-- `copyout` to the top page of the stack, through the kernel table. -/
def pokeStack (p : P) (va : Nat) (bs : List UInt8) : Kern P O F Unit := do
  match ← walk (.kern p) (stackbase / pgsize) with
  | none => Prog.halt "copyout"
  | some e =>
    modify fun w ↦ { w with
      mem := update w.mem e.pa fun j ↦
        if va - stackbase ≤ j then bs.getD (j - (va - stackbase)) (w.mem e.pa j)
        else w.mem e.pa j }

/-- The arguments on the stack: `argc` and the final stack pointer. -/
def execArgs (p : P) (argv : List (List UInt8)) : Kern P O F (Option (Nat × Nat)) := do
  match pushArgs argv userStackTop [] [] with
  | none => pure none
  | some (sp, ustack, out) =>
    Prog.forEach (fun x : Nat × List UInt8 ↦ pokeStack p x.1 x.2) out
    let sp' := pushBytes sp ((ustack.length + 1) * 8)
    if sp' < stackbase then
      pure none
    else
      pokeStack p sp' ((ustack ++ [0]).flatMap (leBytes 8))
      pure (some (ustack.length, sp'))

/-- The new mappings go into the kernel table. -/
def execStage (p : P) (oldsz sz : Nat) : Kern P O F Unit := do
  uvmunmap (.kern p) (pages 0 (pgroundup oldsz)) false
  uvmStackUnmap (.kern p) false
  if ← upg2ukpg (.image p) (.kern p) (pages 0 sz) then
    uvmStackSync (.image p) (.kern p)
  else
    Prog.halt "exec: stage user pages"

/-- The way back after a failure behind `execStage`. -/
def execRestore (p : P) (oldsz sz : Nat) : Kern P O F Unit := do
  uvmunmap (.kern p) (pages 0 (pgroundup sz)) false
  uvmStackUnmap (.kern p) false
  if ← upg2ukpg (.user p) (.kern p) (pages 0 oldsz) then
    uvmStackSync (.user p) (.kern p)
  else
    Prog.halt "exec: restore user pages"

/-- The step of `exec` that cannot fail: the old memory goes, the new table comes. -/
def execCommit (p : P) (oldsz sz : Nat) : Kern P O F Unit := do
  vmaDestroyAll p
  modify fun w ↦ { w with
    pt := update (update w.pt (.user p) (w.pt (.image p)))
      (.image p) (w.pt (.user p)) }
  setProc p fun q ↦ { q with sz := sz }
  procFreepagetable (.image p) oldsz

/-- `exec`; `argc` and the stack pointer, or -1. -/
def exec (b : Boot P) (p : P) (img : Image) : Kern P O F (Option (Nat × Nat)) := do
  let w ← get
  let oldsz := (w.proc p).sz
  elock
  if img.headerOk = false then
    pure none
  else if ← procPagetable b (.image p) ((w.proc p).trapframe.getD 0) then
    let (loaded, sz) ← loadSegs (.image p) 0 img.segs
    if loaded = false then
      procFreepagetable (.image p) sz
      pure none
    else if ← uvmStackInit (.image p) then
      execStage p oldsz (pgroundup sz)
      match ← execArgs p img.argv with
      | none =>
        execRestore p oldsz (pgroundup sz)
        procFreepagetable (.image p) (pgroundup sz)
        pure none
      | some r =>
        execCommit p oldsz (pgroundup sz)
        pure (some r)
    else
      procFreepagetable (.image p) (pgroundup sz)
      pure none
  else
    pure none

/-- The loop of `sys_exec` that takes a page for every argument. -/
def argvPages : List (List UInt8) → List Nat → Kern P O F (Bool × List Nat)
  | [], pas => pure (true, pas)
  | _ :: args, pas => do
    match ← kallocPage with
    | none => pure (false, pas)
    | some pa => argvPages args (pas ++ [pa])

/-- `sys_exec`. -/
def sysExec (b : Boot P) (p : P) (img : Image) : Kern P O F (Option (Nat × Nat)) := do
  let (fetched, pas) ← argvPages (img.argv.take maxarg) []
  if fetched ∧ img.argv.length < maxarg then
    let r ← exec b p img
    Prog.forEach kfreePage pas
    pure r
  else
    Prog.forEach kfreePage pas
    pure none

/-! ### Exit and wait -/

/-- A round of the loop of `exit` over the open files. -/
def exitFile (p : P) (fd : Fin nofile) : Kern P O F Unit := do
  let w ← get
  match (w.proc p).ofile fd with
  | none => pure ()
  | some f =>
    fileclose f
    setProc p fun q ↦ { q with ofile := update q.ofile fd none }

/-- `exit`. -/
def exit (b : Boot P) (p : P) : Kern P O F Unit := do
  if p = b.init then
    Prog.halt "init exiting"
  else
    Prog.forEach (exitFile p) (List.finRange nofile)
    vmaDestroyAll p
    modify fun w ↦ { w with
      proc := fun q ↦
        if (w.proc q).parent = some p then { w.proc q with parent := some b.init }
        else w.proc q }
    setProc p fun q ↦ { q with state := .zombie }

/-- `wait`, when it finds the zombie `c`. Storing the status may take the faults `touched`, and
fails when `stored` is off. -/
def waitFor (b : Boot P) (p c : P) (touched : List Nat) (stored : Bool) : Kern P O F Bool := do
  setHeld true
  freeprocvm b c
  Prog.forEach (fun a ↦ do let _ ← vmResolveFault p a .write) touched
  Prog.doIf stored (freeproc b c)
  setHeld false
  pure stored

/-! ### Loads and stores -/

/-- A store of a user program, through its user table, or of `copyout`, through the kernel
table. One that the entry does not permit is a fault and stores nothing. -/
def store (t : Tbl P) (va : Nat) (x : UInt8) : Kern P O F Unit := do
  let w ← get
  match (w.pt t).leaf[va / pgsize]? with
  | none => pure ()
  | some e =>
    if e.perm.w then
      set { w with
        mem := update w.mem e.pa (update (w.mem e.pa) (va % pgsize) x) }
    else
      pure ()

/-- What a load yields; nothing if it faults. -/
def load (w : World P O F) (t : Tbl P) (va : Nat) : Option UInt8 :=
  match (w.pt t).leaf[va / pgsize]? with
  | none => none
  | some e => if e.perm.r then some (w.mem e.pa (va % pgsize)) else none

/-! ### Descriptors -/

/-- `sys_open`, `sys_pipe`: an unused file is set up and put into a free descriptor. -/
def openFile (p : P) (fd : Fin nofile) (f : F) (x : File) : Kern P O F Unit :=
  modify fun w ↦ { w with
    file := update w.file f { x with ref := 1 }
    proc := update w.proc p
      { w.proc p with ofile := update (w.proc p).ofile fd (some f) } }

/-- `sys_dup`. -/
def sysDup (p : P) (f : F) (fd : Fin nofile) : Kern P O F Unit := do
  setProc p fun q ↦ { q with ofile := update q.ofile fd (some f) }
  filedup f

/-- `sys_close`. -/
def sysClose (p : P) (fd : Fin nofile) (f : F) : Kern P O F Unit := do
  setProc p fun q ↦ { q with ofile := update q.ofile fd none }
  fileclose f

/-! ### Steps -/

/-- What a process asks for. -/
inductive Call (P F : Type) where
  | userinit (code : Nat → UInt8)
  | openFile (p : P) (fd : Fin nofile) (f : F) (x : File)
  | dup (p : P) (f : F) (fd : Fin nofile)
  | close (p : P) (fd : Fin nofile) (f : F)
  | mmap (p : P) (addr : Nat) (length : Int) (prot flags : Nat) (fd offset : Int)
  | munmap (p : P) (addr : Nat) (length : Int)
  | sbrk (p : P) (n : Int)
  | fault (p : P) (address : Nat) (access : Access)
  | store (p : P) (va : Nat) (x : UInt8)
  | copyout (p : P) (va : Nat) (x : UInt8)
  | fork (p c : P)
  | exec (p : P) (img : Image)
  | exit (p : P)
  | wait (p c : P) (touched : List Nat) (stored : Bool)

/-- The routine of a call. -/
def runCall (b : Boot P) : Call P F → Kern P O F Unit
  | .userinit code => userinit b code
  | .openFile p fd f x => openFile p fd f x
  | .dup p f fd => sysDup p f fd
  | .close p fd f => sysClose p fd f
  | .mmap p addr length prot flags fd offset => do
    let _ ← sysMmap p addr length prot flags fd offset
  | .munmap p addr length => do
    let _ ← sysMunmap p addr length
  | .sbrk p n => do
    let _ ← sysSbrk p n
  | .fault p address access => do
    let _ ← vmResolveFault p address access
  | .store p va x => store (.user p) va x
  | .copyout p va x => store (.kern p) va x
  | .fork p c => do
    let _ ← fork b p c
  | .exec p img => do
    let _ ← sysExec b p img
  | .exit p => exit b p
  | .wait p c touched stored => do
    let _ ← waitFor b p c touched stored

/-- When a process can make a call: it is alive, a child goes into an unused slot, a zombie
child is waited for, and descriptors and files are free or in use as the call needs. -/
def Enabled (b : Boot P) (w : World P O F) : Call P F → Prop
  | .userinit _ => (w.proc b.init).state = .unused
  | .openFile p fd f x =>
    (w.proc p).state = .live ∧ (w.proc p).ofile fd = none ∧ (w.file f).ref = 0 ∧
      x.type ≠ .unused
  | .dup p f fd =>
    (w.proc p).state = .live ∧ (w.proc p).ofile fd = none ∧ ∃ fd', (w.proc p).ofile fd' = some f
  | .close p fd f => (w.proc p).state = .live ∧ (w.proc p).ofile fd = some f
  | .mmap p _ _ _ _ _ _ => (w.proc p).state = .live
  | .munmap p _ _ => (w.proc p).state = .live
  | .sbrk p _ => (w.proc p).state = .live
  | .fault p _ _ => (w.proc p).state = .live
  | .store p va _ => (w.proc p).state = .live ∧ va < maxuva
  | .copyout p va _ => (w.proc p).state = .live ∧ va < maxuva
  | .fork p c => (w.proc p).state = .live ∧ (w.proc c).state = .unused
  | .exec p _ => (w.proc p).state = .live
  | .exit p => (w.proc p).state = .live
  | .wait p c _ _ =>
    (w.proc p).state = .live ∧ (w.proc c).state = .zombie ∧ (w.proc c).parent = some p

/-- A call with the answers of the environment to its allocations and file transfers. -/
structure Event (P O F : Type) where
  call : Call P F
  answers : List (Option (Nat × O))
  io : List Bool

/-- One call that returns. -/
def Step (b : Boot P) (w : World P O F) (e : Event P O F) (w' : World P O F) : Prop :=
  Enabled b w e.call ∧
    runCall b e.call { w with answers := e.answers, io := e.io, slept := false } = .ok ((), w')

/-- A process that does not exist. -/
def Proc.none : Proc P O F :=
  ⟨.unused, Option.none, 0, fun _ ↦ Option.none, fun _ ↦ Option.none, Option.none, 0⟩

/-- The state after the boot: no process, no object, no open file, and every page free. -/
def World.boot (data : Nat → List UInt8) : World P O F where
  quota _ := 0
  mem _ _ := 1
  answers := []
  io := []
  data := data
  held := false
  slept := false
  obj _ := Option.none
  file _ := ⟨0, .unused, false, false, 0⟩
  pt _ := .null
  proc _ := Proc.none

end Xv6K210.Vm
