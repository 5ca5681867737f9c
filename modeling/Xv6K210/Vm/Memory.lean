import Mathlib.Algebra.Group.Nat.Defs
import Mathlib.Logic.Function.Basic
import Std.Data.ExtTreeMap
import Xv6K210.Base.Prog

/-!
# Physical pages and page tables

Sources `kernel/vm/kalloc.c:62–165`, `kernel/vm/vm.c:137–286,510–572`,
`kernel/include/memlayout.h`, `riscv.h`, `mmap.h`. A page table is the finite map from virtual
page numbers to bottom-level entries that its three levels hold, with the pages of its upper
levels: a level-1 table for every 2^18 page numbers and a level-0 table for every 2^9.

The free lists of `kalloc.c` are not kept: a page is free when its quota is 0. Which page or
object an allocation yields, and whether it fails, is answered by the environment; an answer
that is in use counts as a failure.
-/

namespace Xv6K210.Vm

open Xv6K210.Base Function

/-! ### Layout -/

/-- `PGSIZE`. -/
def pgsize : Nat := 4096

/-- `PGROUNDUP`. -/
def pgroundup (a : Nat) : Nat := (a + pgsize - 1) / pgsize * pgsize

/-- `MAXVA`, as a page number. -/
def maxpage : Nat := 2 ^ 26

/-- `MAXUVA`, the end of user memory. -/
def maxuva : Nat := 0x80000000

/-- `USER_STACK_TOP`. -/
def userStackTop : Nat := maxuva

/-- `USER_STACK_BOTTOM`, where the guard page of the stack begins. -/
def userStackBottom : Nat := userStackTop - 2 ^ 20

/-- `USER_STACK_START`, the first address of the stack. -/
def userStackStart : Nat := userStackBottom + pgsize

/-- `MMAP_TOP`. -/
def mmapTop : Nat := userStackBottom

/-- `NVMA`. -/
def nvma : Nat := 16

/-- `NOFILE`. -/
def nofile : Nat := 16

/-- The pages that `for(a = start; a < end; a += PGSIZE)` visits, from an aligned `start`. -/
def pages (start fin : Nat) : List Nat :=
  List.range' (start / pgsize) ((fin + pgsize - 1) / pgsize - start / pgsize)

/-! ### Page-table entries -/

/-- The permission bits of an entry. -/
structure Perm where
  r : Bool
  w : Bool
  x : Bool
  u : Bool
  cow : Bool
  deriving DecidableEq, Repr

/-- A valid bottom-level entry: the number of the physical page, and the permissions. -/
structure Pte where
  pa : Nat
  perm : Perm
  deriving DecidableEq, Repr

/-- `*u_pte & ~PTE_U`. -/
def Pte.mirror (e : Pte) : Pte := { e with perm := { e.perm with u := false } }

/-- `PTE_FLAGS(pte) == PTE_V`. -/
def Pte.bare (e : Pte) : Bool := e.perm == ⟨false, false, false, false, false⟩

/-- A three-level table. `root` is missing when the pointer is null. -/
structure PageTable where
  root : Option Nat
  l1 : Std.ExtTreeMap Nat Nat
  l0 : Std.ExtTreeMap Nat Nat
  leaf : Std.ExtTreeMap Nat Pte

/-- The null pointer. -/
def PageTable.null : PageTable := ⟨none, ∅, ∅, ∅⟩

/-- The pages that a table itself takes. -/
def PageTable.tables (t : PageTable) : List Nat :=
  t.root.toList ++ t.l1.values ++ t.l0.values

/-! ### The state -/

/-- `enum vma_type`. -/
inductive VmaType where
  | file
  | anon
  | kbuf
  deriving DecidableEq, Repr

/-- `struct vma_area`, in use. `ops` tells whether a fault operation is installed. -/
structure Vma (O : Type) where
  type : VmaType
  start : Nat
  fin : Nat
  validEnd : Nat
  offset : Nat
  prot : Nat
  flags : Nat
  populate : Bool
  object : Option O
  ops : Bool
  deriving DecidableEq, Repr

/-- `struct mmap_object`. `anon` lists the shared pages with their indices, `kbuf` the pages of
the buffer in order. -/
structure MmapObject (F : Type) where
  refcnt : Nat
  type : VmaType
  file : Option F
  anon : Option (List (Nat × Nat))
  kbuf : Option (List Nat)
  deriving DecidableEq, Repr

/-- The `mmap` operation of a device. -/
inductive DevMmap where
  | absent
  | kbufdev
  | eagerdev
  | oledfb
  deriving DecidableEq, Repr

/-- The `type` of a file. -/
inductive FileType where
  | unused
  | pipe
  | entry
  | device (mmap : DevMmap)
  deriving DecidableEq, Repr

/-- `struct file`, with the number of the directory entry it refers to. -/
structure File where
  ref : Nat
  type : FileType
  readable : Bool
  writable : Bool
  ep : Nat
  deriving DecidableEq, Repr

/-- `enum procstate`; the states between `UNUSED` and `ZOMBIE` are one here. -/
inductive ProcState where
  | unused
  | live
  | zombie
  deriving DecidableEq, Repr

/-- `struct proc`, as far as its memory goes. -/
structure Proc (P O F : Type) where
  state : ProcState
  parent : Option P
  sz : Nat
  vmas : Fin nvma → Option (Vma O)
  ofile : Fin nofile → Option F
  trapframe : Option Nat
  /-- the page number of the kernel stack, 0 when there is none -/
  kstack : Nat

/-- The page tables of the kernel: a process has its user table, its kernel table, and while
it runs `exec` the table of the new image. -/
inductive Tbl (P : Type) where
  | user (p : P)
  | kern (p : P)
  | image (p : P)
  deriving DecidableEq, Repr

/-- The kernel state. `answers` are the answers to the next allocations: a page and an object,
or no memory. `io` tells which of the next file transfers succeed. `held` tells that a process
lock is held, and `slept` that a file was accessed with it. -/
structure World (P O F : Type) where
  quota : Nat → Nat
  mem : Nat → Nat → UInt8
  answers : List (Option (Nat × O))
  io : List Bool
  /-- the contents of the files, by directory entry -/
  data : Nat → List UInt8
  held : Bool
  slept : Bool
  obj : O → Option (MmapObject F)
  file : F → File
  pt : Tbl P → PageTable
  proc : P → Proc P O F

/-- A routine of the kernel. -/
abbrev Kern (P O F : Type) (α : Type) := Prog (World P O F) α

variable {P O F : Type}

/-! ### Physical pages -/

/-- `kalloc_page`. -/
def kallocPage : Kern P O F (Option Nat) := do
  let w ← get
  match w.answers with
  | some (pa, _) :: rest =>
    if w.quota pa = 0 then
      set { w with
        answers := rest
        quota := update w.quota pa 1
        mem := update w.mem pa fun _ ↦ 5 }
      pure (some pa)
    else
      set { w with answers := rest }
      pure none
  | none :: rest =>
    set { w with answers := rest }
    pure none
  | [] => pure none

/-- `kfree_page`: the quota is an 8-bit number. -/
def kfreePage (pa : Nat) : Kern P O F Unit := do
  let w ← get
  let cnt := (w.quota pa + 255) % 256
  if 0 < cnt then
    set { w with quota := update w.quota pa cnt }
  else
    set { w with
      quota := update w.quota pa cnt
      mem := update w.mem pa fun _ ↦ 1 }

/-- `kaddquota`. -/
def kaddquota (pa : Nat) : Kern P O F Unit :=
  modify fun w ↦ { w with quota := update w.quota pa ((w.quota pa + 1) % 256) }

/-- `memset(pa, 0, PGSIZE)`. -/
def zeroPage (pa : Nat) : Kern P O F Unit :=
  modify fun w ↦ { w with mem := update w.mem pa fun _ ↦ 0 }

/-- `memmove(dst, src, PGSIZE)`. -/
def copyPage (dst src : Nat) : Kern P O F Unit :=
  modify fun w ↦ { w with mem := update w.mem dst (w.mem src) }

/-- `kmalloc`, of an object other than a `struct mmap_object`. -/
def kmalloc : Kern P O F Bool := do
  let w ← get
  match w.answers with
  | a :: rest =>
    set { w with answers := rest }
    pure a.isSome
  | [] => pure false

/-! ### Page tables -/

variable [DecidableEq P]

/-- Replace a table. -/
def setPt (t : Tbl P) (f : PageTable → PageTable) : Kern P O F Unit :=
  modify fun w ↦ { w with pt := update w.pt t (f (w.pt t)) }

/-- `walk(pagetable, va, 0)`: the valid entry of a page. -/
def walk (t : Tbl P) (n : Nat) : Kern P O F (Option Pte) := do
  let w ← get
  if maxpage ≤ n then Prog.halt "walk" else pure (w.pt t).leaf[n]?

/-- A level of `walk(pagetable, va, 1)`: the table is there, or a page is taken for it. -/
def walkLevel (t : Tbl P) (there : PageTable → Bool) (put : Nat → PageTable → PageTable) :
    Kern P O F Bool := do
  let w ← get
  if there (w.pt t) then
    pure true
  else
    match ← kallocPage with
    | none => pure false
    | some pa =>
      zeroPage pa
      setPt t (put pa)
      pure true

/-- `walk(pagetable, va, 1)`: whether the entry could be reached. -/
def walkAlloc (t : Tbl P) (n : Nat) : Kern P O F Bool := do
  if maxpage ≤ n then
    Prog.halt "walk"
  else if ← walkLevel t (fun pt ↦ pt.l1.contains (n / 2 ^ 18))
      (fun pa pt ↦ { pt with l1 := pt.l1.insert (n / 2 ^ 18) pa }) then
    walkLevel t (fun pt ↦ pt.l0.contains (n / 2 ^ 9))
      (fun pa pt ↦ { pt with l0 := pt.l0.insert (n / 2 ^ 9) pa })
  else
    pure false

/-- `*pte = PA2PTE(pa) | perm | PTE_V`. -/
def setLeaf (t : Tbl P) (n : Nat) (e : Pte) : Kern P O F Unit :=
  setPt t fun pt ↦ { pt with leaf := pt.leaf.insert n e }

/-- `*pte = 0`. -/
def clearLeaf (t : Tbl P) (n : Nat) : Kern P O F Unit :=
  setPt t fun pt ↦ { pt with leaf := pt.leaf.erase n }

/-- `mappages`, of one page. -/
def mappages (t : Tbl P) (n pa : Nat) (perm : Perm) : Kern P O F Bool := do
  if ← walkAlloc t n then
    let w ← get
    if (w.pt t).leaf.contains n then
      Prog.halt "remap"
    else
      setLeaf t n ⟨pa, perm⟩
      pure true
  else
    pure false

/-- A round of `uvmunmap`. -/
def uvmunmapPage (t : Tbl P) (doFree : Bool) (n : Nat) : Kern P O F Unit := do
  match ← walk t n with
  | none => pure ()
  | some e =>
    if e.bare then
      Prog.halt "uvmunmap: not a leaf"
    else
      Prog.doIf doFree (kfreePage e.pa)
      clearLeaf t n

/-- `uvmunmap`, on the pages of an aligned range. -/
def uvmunmap (t : Tbl P) (ns : List Nat) (doFree : Bool) : Kern P O F Unit :=
  Prog.forEach (uvmunmapPage t doFree) ns

/-- A round of `upg2ukpg`. -/
def upg2ukpgPage (u k : Tbl P) (n : Nat) : Kern P O F Bool := do
  match ← walk u n with
  | none => pure true
  | some e =>
    if ← walkAlloc k n then
      setLeaf k n e.mirror
      pure true
    else
      pure false

/-- `upg2ukpg`, on the pages of a range; whether it succeeded. -/
def upg2ukpg (u k : Tbl P) (ns : List Nat) : Kern P O F Bool := do
  return (← Prog.stopAt (upg2ukpgPage u k) ns).isNone

/-- `vm_sync_user_page`. -/
def vmSyncUserPage (p : P) (n : Nat) : Kern P O F Bool :=
  if maxuva ≤ n * pgsize then pure false else upg2ukpg (.user p) (.kern p) [n]

/-- `freewalk`: the pages of the levels are freed; a leaf that is left is a panic. -/
def freewalk (t : Tbl P) : Kern P O F Unit := do
  let w ← get
  if (w.pt t).leaf.isEmpty then
    Prog.forEach kfreePage (w.pt t).tables
    setPt t fun _ ↦ .null
  else
    Prog.halt "freewalk: leaf"

/-- `ukvmfree`: the pages of the levels are freed, whatever they map. -/
def ukvmfree (t : Tbl P) : Kern P O F Unit := do
  let w ← get
  Prog.forEach kfreePage (w.pt t).tables
  setPt t fun _ ↦ .null

/-- `uvmcreate`, and the first step of `ukvminit`: an empty table. -/
def uvmcreate (t : Tbl P) : Kern P O F Bool := do
  match ← kallocPage with
  | none => pure false
  | some pa =>
    zeroPage pa
    setPt t fun _ ↦ ⟨some pa, ∅, ∅, ∅⟩
    pure true

end Xv6K210.Vm
