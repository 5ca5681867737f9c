import Mathlib.Algebra.Group.Nat.Defs
import Xv6K210.Base.Radix

/-!
# Three-level page tables in memory

Sources `kernel/vm/vm.c:127–180,237–286,323–332`, `kernel/vm/kalloc.c:80–165` and
`kernel/include/riscv.h:212–236`. Memory is a function from the addresses of pages and from an index
to 64-bit words. No result stands for a panic.

The free lists of `kalloc.c` are not kept: a page is free when its quota is 0. Which page an
allocation yields, and whether it fails, is answered by the environment; an answer that is in use
counts as a failure.
-/

namespace Xv6K210.Sv39

open Base

/-! ### Addresses and entries -/

/-- `PGSIZE`. -/
def pgsize : BitVec 64 := 4096

/-- `PGROUNDDOWN`. -/
def pgrounddown (a : BitVec 64) : BitVec 64 := a &&& ~~~(pgsize - 1)

/-- `MAXVA`. -/
def maxva : BitVec 64 := 0x4000000000

/-- `MAXUVA`. -/
def maxuva : BitVec 64 := 0x80000000

/-- `PHYSTOP`. -/
def phystop : BitVec 64 := 0x80600000

/-- `PTE_V`. -/
def pteV : BitVec 64 := 1

/-- `PTE_U`. -/
def pteU : BitVec 64 := 0x10

/-- `PA2PTE`. -/
def pa2pte (pa : BitVec 64) : BitVec 64 := (pa >>> 12) <<< 10

/-- `PTE2PA`. -/
def pte2pa (pte : BitVec 64) : BitVec 64 := (pte >>> 10) <<< 12

/-- `PTE_FLAGS`. -/
def pteFlags (pte : BitVec 64) : BitVec 64 := pte &&& 0x3FF

/-- `PX`. -/
def px (level : Nat) (va : BitVec 64) : Nat := ((va >>> (12 + 9 * level)) &&& 0x1FF).toNat

/-- `*pte & PTE_V`. -/
def valid (pte : BitVec 64) : Bool := pte &&& pteV ≠ 0

/-! ### Memory -/

/-- The address of a physical page. -/
structure Page where
  addr : BitVec 64
  aligned : pgrounddown addr = addr
  nonnull : addr ≠ 0
  deriving DecidableEq

/-- The physical memory. `kend` is the end of the kernel, which the linker sets. -/
structure Ram where
  word : BitVec 64 → Nat → BitVec 64
  quota : BitVec 64 → BitVec 8
  kend : BitVec 64
  answers : List Page

/-- A pointer into a page table. -/
structure Slot where
  page : BitVec 64
  index : Nat
  deriving DecidableEq, Repr

namespace Ram

/-- `*pte`. -/
def load (r : Ram) (pte : Slot) : BitVec 64 := r.word pte.page pte.index

/-- `*pte = e`. -/
def store (r : Ram) (pte : Slot) (e : BitVec 64) : Ram :=
  { r with word := Radix.store r.word pte.page pte.index e }

/-- `memset`, of a page, with words. -/
def memset (r : Ram) (pa c : BitVec 64) : Ram :=
  { r with word := Function.update r.word pa fun _ ↦ c }

end Ram

/-- `kalloc_page`. -/
def kallocPage (r : Ram) : Option (BitVec 64) × Ram :=
  match r.answers with
  | [] => (none, r)
  | p :: answers =>
    if r.quota p.addr = 0 then
      (some p.addr,
        { r with quota := Function.update r.quota p.addr 1, answers }.memset p.addr
          0x0505050505050505)
    else (none, { r with answers })

/-- `kfree_page`: the quota is an unsigned character. -/
def kfreePage (pa : BitVec 64) (r : Ram) : Option Ram :=
  if pa % pgsize ≠ 0 ∨ pa < r.kend ∨ phystop ≤ pa then none
  else
    let cnt := r.quota pa - 1
    let r := { r with quota := Function.update r.quota pa cnt }
    if 0 < cnt then some r else some (r.memset pa 0x0101010101010101)

/-! ### The routines on page tables -/

/-- The loop of `walk`. -/
def walkFrom (va : BitVec 64) (alloc : Bool) : Nat → BitVec 64 → Ram → Option Slot × Ram
  | 0, pagetable, r => (some ⟨pagetable, px 0 va⟩, r)
  | level + 1, pagetable, r =>
    let pte : Slot := ⟨pagetable, px (level + 1) va⟩
    if valid (r.load pte) then walkFrom va alloc level (pte2pa (r.load pte)) r
    else if !alloc then (none, r)
    else
      match kallocPage r with
      | (none, r) => (none, r)
      | (some pagetable, r) =>
        walkFrom va alloc level pagetable
          ((r.memset pagetable 0).store pte (pa2pte pagetable ||| pteV))

/-- `walk`. -/
def walk (pagetable va : BitVec 64) (alloc : Bool) (r : Ram) : Option (Option Slot × Ram) :=
  if maxva ≤ va then none else some (walkFrom va alloc 2 pagetable r)

/-- `walkaddr`. -/
def walkaddr (pagetable va : BitVec 64) (r : Ram) : Option (BitVec 64) :=
  if maxuva ≤ va then some 0
  else
    match walk pagetable va false r with
    | none => none
    | some (none, _) => some 0
    | some (some pte, r) =>
      if !valid (r.load pte) then some 0
      else if r.load pte &&& pteU = 0 then some 0
      else some (pte2pa (r.load pte))

/-- A round of `mappages`, and whether the entry could be reached. -/
def mappagesPage (pagetable a pa perm : BitVec 64) (r : Ram) : Option (Bool × Ram) :=
  match walk pagetable a true r with
  | none => none
  | some (none, r) => some (false, r)
  | some (some pte, r) =>
    if valid (r.load pte) then none
    else some (true, r.store pte (pa2pte pa ||| perm ||| pteV))

/-- A round of `uvmunmap`. -/
def uvmunmapPage (pagetable a : BitVec 64) (doFree : Bool) (r : Ram) : Option Ram :=
  match walk pagetable a false r with
  | none => none
  | some (none, r) => some r
  | some (some pte, r) =>
    if !valid (r.load pte) then some r
    else if pteFlags (r.load pte) = pteV then none
    else (if doFree then kfreePage (pte2pa (r.load pte)) r else some r).map (·.store pte 0)

/-- `walk` answers below `MAXVA` only. -/
theorem walk_lt {pagetable va : BitVec 64} {alloc : Bool} {r : Ram} {o : Option Slot × Ram}
    (h : walk pagetable va alloc r = some o) : va < maxva := by
  rw [walk] at h
  split at h
  · cases h
  · exact BitVec.not_le.mp ‹_›

/-- A page is mapped below `MAXVA` only. -/
theorem mappagesPage_lt {pagetable a pa perm : BitVec 64} {r : Ram} {o : Bool × Ram}
    (h : mappagesPage pagetable a pa perm r = some o) : a < maxva := by
  rw [mappagesPage] at h
  split at h
  · cases h
  · exact walk_lt ‹_›
  · exact walk_lt ‹_›

private theorem uvmunmapPage_lt {pagetable a : BitVec 64} {doFree : Bool} {r r' : Ram}
    (h : uvmunmapPage pagetable a doFree r = some r') : a < maxva := by
  rw [uvmunmapPage] at h
  split at h
  · cases h
  · exact walk_lt ‹_›
  · exact walk_lt ‹_›

/-- The next page is nearer to the end of what can be mapped. -/
theorem next_lt {a : BitVec 64} (h : a < maxva) :
    maxva.toNat - (a + pgsize).toNat < maxva.toNat - a.toNat := by
  have ha : a.toNat < 0x4000000000 := h
  have hnext : (a + pgsize).toNat = a.toNat + 4096 := by
    rw [BitVec.toNat_add]
    exact Nat.mod_eq_of_lt (show a.toNat + 4096 < 2 ^ 64 by omega)
  rw [hnext]
  exact Nat.sub_lt_sub_left h (by omega)

/-- The loop of `mappages`. -/
def mappagesLoop (pagetable last perm a pa : BitVec 64) (r : Ram) : Option (Int × Ram) :=
  match h : mappagesPage pagetable a pa perm r with
  | none => none
  | some (false, r) => some (-1, r)
  | some (true, r) =>
    if a = last then some (0, r) else mappagesLoop pagetable last perm (a + pgsize) (pa + pgsize) r
termination_by maxva.toNat - a.toNat
decreasing_by exact next_lt (mappagesPage_lt h)

/-- `mappages`. -/
def mappages (pagetable va size pa perm : BitVec 64) (r : Ram) : Option (Int × Ram) :=
  mappagesLoop pagetable (pgrounddown (va + size - 1)) perm (pgrounddown va) pa r

/-- The loop of `uvmunmap`. -/
def uvmunmapLoop (pagetable fin : BitVec 64) (doFree : Bool) (a : BitVec 64) (r : Ram) :
    Option Ram :=
  if a < fin then
    match _h : uvmunmapPage pagetable a doFree r with
    | none => none
    | some r => uvmunmapLoop pagetable fin doFree (a + pgsize) r
  else some r
termination_by maxva.toNat - a.toNat
decreasing_by exact next_lt (uvmunmapPage_lt ‹_›)

/-- `uvmunmap`. -/
def uvmunmap (pagetable va npages : BitVec 64) (doFree : Bool) (r : Ram) : Option Ram :=
  if va % pgsize ≠ 0 then none
  else uvmunmapLoop pagetable (va + npages * pgsize) doFree va r

/-- `uvmcreate`. -/
def uvmcreate (r : Ram) : Option (BitVec 64) × Ram :=
  match kallocPage r with
  | (none, r) => (none, r)
  | (some pagetable, r) => (some pagetable, r.memset pagetable 0)

/-- What `walk` without allocation reads of a page: its entry, if it is valid. -/
def lookup (pagetable va : BitVec 64) (r : Ram) : Option (BitVec 64) :=
  match walk pagetable va false r with
  | some (some pte, r) => if valid (r.load pte) then some (r.load pte) else none
  | _ => none

end Xv6K210.Sv39
