import Xv6K210.Alloc.Pages
import Mathlib.Data.Fin.VecNotation

/-!
# The slab allocator

`src/kernel/vm/kmalloc.c`: objects of eight sizes, cut from pages. A slab page begins with
its header, and the free objects are threaded through their first words. Memory is a map
from the address of a word to its value, so that header fields, list links and the contents
of objects share it. A region under the lock of a bucket is one step; what lies between two
regions of a call may be overtaken by other calls.
-/

namespace Xv6K210.Slab

open Base Alloc Function

/-- `SLAB_MAGIC`. -/
def slabMagic : Nat := 0x51ab51ab

/-- `slab_sizes`, which `kminit` copies into the buckets. -/
def slabSizes : Fin 8 → Nat := ![16, 32, 64, 128, 256, 512, 1024, 2048]

/-- `slab_bucket_index`; -1 is `none`. -/
def slabBucketIndex (size : Nat) : Option (Fin 8) :=
  (List.finRange 8).find? fun i ↦ size ≤ slabSizes i

/-- `align_up`. -/
def alignUp (value align : UInt64) : UInt64 := (value + align - 1) &&& ~~~(align - 1)

/-- `slab_data_offset`: a header is four words of 32 bits and two pointers. -/
def slabDataOffset : Nat := (alignUp 32 16).toNat

/-- `PGROUNDDOWN`. -/
def pgrounddown (a : Nat) : Nat := a / 4096 * 4096

/-- `x ++` and `x --` on a `uint`. -/
def inc (x : Nat) : Nat := (x + 1) % 2 ^ 32

def dec (x : Nat) : Nat := (x + (2 ^ 32 - 1)) % 2 ^ 32

/-- Memory, from the address of a word to its value. -/
abbrev Cells : Type := Nat → Nat

namespace Cells

variable (c : Cells)

/-- The fields of the `struct slab_page` at an address. -/
def magic (slab : Nat) : Nat := c slab

def objSize (slab : Nat) : Nat := c (slab + 4)

def total (slab : Nat) : Nat := c (slab + 8)

def freeCount (slab : Nat) : Nat := c (slab + 12)

def next (slab : Nat) : Nat := c (slab + 16)

def freeList (slab : Nat) : Nat := c (slab + 24)

/-- The assignment `*a = v`. -/
def set (a v : Nat) : Cells := update c a v

/-- `memset` of `len` bytes. -/
def memset (a len v : Nat) : Cells :=
  fun b ↦ if a ≤ b ∧ b < a + len then 0x0101010101010101 * v else c b

/-- The loop of `kmalloc` that cuts a page into nodes, from node `i` on. -/
def cut (page objSize : Nat) : Nat → Nat → Cells → Cells
  | 0, _, c => c
  | left + 1, i, c =>
    let node := page + slabDataOffset + i * objSize
    let c := c.set node (c.freeList page)
    let c := c.set (page + 24) node
    cut page objSize left (i + 1) (c.set (page + 12) (inc (c.freeCount page)))

/-- What `kmalloc` does with a new page before it takes the lock again. -/
def newSlab (page objSize : Nat) : Cells :=
  let c := c.set page slabMagic
  let c := c.set (page + 4) objSize
  let c := c.set (page + 12) 0
  let c := c.set (page + 24) 0
  let total := (4096 - slabDataOffset) / objSize
  cut page objSize total 0 (c.set (page + 8) total)

/-- The head of the free list is taken off. -/
def takeNode (slab : Nat) : Cells :=
  let node := c.freeList slab
  let c := c.set (slab + 24) (c node)
  c.set (slab + 12) (dec (c.freeCount slab))

/-- The object is put in front of the free list. -/
def giveNode (slab ptr : Nat) : Cells :=
  let c := c.memset ptr (c.objSize slab) 1
  let c := c.set ptr (c.freeList slab)
  let c := c.set (slab + 24) ptr
  c.set (slab + 12) (inc (c.freeCount slab))

/-- The tests of `kfree` before it takes the lock; it goes on with the index of a bucket. -/
def kfreeIndex (z : Zone) (ptr : Nat) : Option (Fin 8) :=
  let page := pgrounddown ptr
  if ¬ z.manages (page / 4096) then none
  else if c.magic page ≠ slabMagic then none
  else
    match slabBucketIndex (c.objSize page) with
    | none => none
    | some index =>
      if slabSizes index ≠ c.objSize page then none
      else if ptr < page + slabDataOffset ∨ page + 4096 ≤ ptr ∨
          (ptr - page - slabDataOffset) % c.objSize page ≠ 0 then none
      else some index

end Cells

/-- The memory and the heads of the bucket lists. -/
structure Heap where
  cell : Cells
  slabs : Fin 8 → Nat

/-- A `struct slab_page **`: the head of the bucket's list or the `next` field of a slab. -/
inductive Link where
  | head
  | next (slab : Nat)

namespace Heap

variable (h : Heap) (i : Fin 8)

/-- `*prev`. -/
def load : Link → Nat
  | .head => h.slabs i
  | .next slab => h.cell.next slab

/-- `*prev = v`. -/
def store (v : Nat) : Link → Heap
  | .head => { h with slabs := update h.slabs i v }
  | .next slab => { h with cell := h.cell.set (slab + 16) v }

/-- The loop of `kmalloc` over a bucket's list, with fuel. -/
def firstFree : Nat → Nat → Option Nat
  | 0, _ => none
  | fuel + 1, slab =>
    if slab = 0 then some 0
    else if 0 < h.cell.freeCount slab then some slab
    else firstFree fuel (h.cell.next slab)

/-- The loop of `kfree` over a bucket's list, with fuel. -/
def findLink (slab : Nat) : Nat → Link → Option Link
  | 0, _ => none
  | fuel + 1, prev =>
    if h.load i prev = 0 ∨ h.load i prev = slab then some prev
    else findLink slab fuel (.next (h.load i prev))

/-- The head insert of `kmalloc`. -/
def link (page : Nat) : Heap where
  cell := h.cell.set (page + 16) (h.slabs i)
  slabs := update h.slabs i page

/-- A slab whose link was found leaves its list. -/
def unlink (slab : Nat) (prev : Link) : Heap :=
  let h := h.store i (h.cell.next slab) prev
  { h with cell := h.cell.set slab 0 }

end Heap

/-- How far a call of a thread has come. `paging` found no slab with a free object, `fresh`
has a new slab page that is not on a list yet, `filling` has an object, `freeing` is a
`kfree` whose tests have passed, and `releasing` has a page for `kfree_page`. -/
inductive Pc where
  | idle
  | paging (i : Fin 8) (size : Nat)
  | fresh (i : Fin 8) (page size : Nat)
  | filling (i : Fin 8) (node : Nat)
  | freeing (i : Fin 8) (ptr : Nat)
  | releasing (page : Nat)
  | panicked

/-- The object in the hands of a call, with its bucket. -/
def Pc.object : Pc → Option (Fin 8 × Nat)
  | filling i node => some (i, node)
  | freeing i ptr => some (i, ptr)
  | _ => none

/-- The heap, the calls under way, the pages that `kalloc_page` has returned to `kmalloc`
and that were not given back, and the live objects with the sizes asked for: from the moment
that an object leaves its free list to the moment that it is back. -/
structure State (T : Type) where
  heap : Heap
  pc : T → Pc
  held : Nat → Bool
  live : Nat → Option Nat

/-- What happens. `kmalloc` tells what the call returns when it returns at once, `page` is the
result of `kalloc_page`, `ret` returns an object, `free` is the region of `kfree`, `release`
the call of `kfree_page`, `store` a write of an owner to its object, and `scribble` a write of
others to a page that the allocator does not have. -/
inductive Act (T : Type) where
  | kmalloc (t : T) (size : Nat) (result : Option Nat)
  | page (t : T) (page : Nat)
  | insert (t : T)
  | ret (t : T) (node : Nat)
  | kfree (t : T) (ptr : Nat)
  | free (t : T) (ptr : Nat)
  | release (t : T) (page : Nat)
  | store (ptr a v : Nat)
  | scribble (a v : Nat)

namespace State

variable {T : Type} [DecidableEq T]

/-- The thread is at another place. -/
def goto (s : State T) (t : T) (pc : Pc) : State T :=
  { s with pc := update s.pc t pc }

/-- The memory has changed. -/
def setCell (s : State T) (c : Cells) : State T := { s with heap := { s.heap with cell := c } }

/-- The region of `kmalloc` takes the first node of the slab for a request. -/
def take (s : State T) (t : T) (i : Fin 8) (slab size : Nat) : State T :=
  { (s.setCell (s.heap.cell.takeNode slab)).goto t (.filling i (s.heap.cell.freeList slab)) with
    live := update s.live (s.heap.cell.freeList slab) (some size) }

/-- The region of `kfree` has put the object on the free list. -/
def give (s : State T) (ptr : Nat) : State T :=
  { s.setCell (s.heap.cell.giveNode (pgrounddown ptr) ptr) with
    live := update s.live ptr none }

/-- The slab is full again once the object is on its free list. -/
def Full (s : State T) (slab : Nat) : Prop := s.heap.cell.freeCount slab = s.heap.cell.total slab

/-- One step. Only a live object that no call has in its hands is given to `kfree`. -/
inductive Step (z : Zone) : State T → Act T → State T → Prop where
  | zero {s : State T} {t : T} (h : s.pc t = .idle) : Step z s (.kmalloc t 0 (some 0)) s
  | large {s : State T} {t : T} {size : Nat} (h : s.pc t = .idle) (hsize : size ≠ 0)
      (hindex : slabBucketIndex size = none) : Step z s (.kmalloc t size (some 0)) s
  | found {s : State T} {t : T} {size : Nat} {i : Fin 8} {slab : Nat} (fuel : Nat)
      (h : s.pc t = .idle) (hsize : size ≠ 0) (hindex : slabBucketIndex size = some i)
      (hfirst : s.heap.firstFree fuel (s.heap.slabs i) = some slab) (hslab : slab ≠ 0) :
      Step z s (.kmalloc t size none) (s.take t i slab size)
  | notFound {s : State T} {t : T} {size : Nat} {i : Fin 8} (fuel : Nat)
      (h : s.pc t = .idle) (hsize : size ≠ 0) (hindex : slabBucketIndex size = some i)
      (hfirst : s.heap.firstFree fuel (s.heap.slabs i) = some 0) :
      Step z s (.kmalloc t size none) (s.goto t (.paging i size))
  | noPage {s : State T} {t : T} {size : Nat} {i : Fin 8} (h : s.pc t = .paging i size) :
      Step z s (.page t 0) (s.goto t .idle)
  | page {s : State T} {t : T} {size : Nat} {i : Fin 8} {p : Nat} (h : s.pc t = .paging i size)
      (hp : z.manages p) (hheld : s.held (4096 * p) = false) :
      Step z s (.page t (4096 * p))
        { (s.setCell (s.heap.cell.newSlab (4096 * p) (slabSizes i))).goto t
            (.fresh i (4096 * p) size) with
          held := update s.held (4096 * p) true }
  | insert {s : State T} {t : T} {size : Nat} {i : Fin 8} {page : Nat}
      (h : s.pc t = .fresh i page size) :
      Step z s (.insert t) (State.take { s with heap := s.heap.link i page } t i page size)
  | ret {s : State T} {t : T} {i : Fin 8} {node : Nat} (h : s.pc t = .filling i node) :
      Step z s (.ret t node)
        ((s.setCell (s.heap.cell.memset node (slabSizes i) 5)).goto t .idle)
  | kfreeNull {s : State T} {t : T} (h : s.pc t = .idle) : Step z s (.kfree t 0) s
  | kfree {s : State T} {t : T} {ptr : Nat} {i : Fin 8} (h : s.pc t = .idle)
      (hlive : s.live ptr ≠ none) (hown : ∀ u j, (s.pc u).object ≠ some (j, ptr))
      (hptr : ptr ≠ 0) (hindex : s.heap.cell.kfreeIndex z ptr = some i) :
      Step z s (.kfree t ptr) (s.goto t (.freeing i ptr))
  | kfreePanic {s : State T} {t : T} {ptr : Nat} (h : s.pc t = .idle)
      (hlive : s.live ptr ≠ none) (hown : ∀ u j, (s.pc u).object ≠ some (j, ptr))
      (hptr : ptr ≠ 0) (hindex : s.heap.cell.kfreeIndex z ptr = none) :
      Step z s (.kfree t ptr) (s.goto t .panicked)
  | freePanic {s : State T} {t : T} {ptr : Nat} {i : Fin 8} (h : s.pc t = .freeing i ptr)
      (hcount : s.heap.cell.total (pgrounddown ptr) ≤ s.heap.cell.freeCount (pgrounddown ptr)) :
      Step z s (.free t ptr) (s.goto t .panicked)
  | freeMore {s : State T} {t : T} {ptr : Nat} {i : Fin 8} (h : s.pc t = .freeing i ptr)
      (hcount : s.heap.cell.freeCount (pgrounddown ptr) < s.heap.cell.total (pgrounddown ptr))
      (hfull : ¬ (s.give ptr).Full (pgrounddown ptr)) :
      Step z s (.free t ptr) ((s.give ptr).goto t .idle)
  | freeLast {s : State T} {t : T} {ptr : Nat} {i : Fin 8} {prev : Link} (fuel : Nat)
      (h : s.pc t = .freeing i ptr)
      (hcount : s.heap.cell.freeCount (pgrounddown ptr) < s.heap.cell.total (pgrounddown ptr))
      (hfull : (s.give ptr).Full (pgrounddown ptr))
      (hfind : (s.give ptr).heap.findLink i (pgrounddown ptr) fuel .head = some prev)
      (hprev : (s.give ptr).heap.load i prev ≠ 0) :
      Step z s (.free t ptr)
        (State.goto { s.give ptr with heap := (s.give ptr).heap.unlink i (pgrounddown ptr) prev }
          t (.releasing (pgrounddown ptr)))
  | freeMissing {s : State T} {t : T} {ptr : Nat} {i : Fin 8} {prev : Link} (fuel : Nat)
      (h : s.pc t = .freeing i ptr)
      (hcount : s.heap.cell.freeCount (pgrounddown ptr) < s.heap.cell.total (pgrounddown ptr))
      (hfull : (s.give ptr).Full (pgrounddown ptr))
      (hfind : (s.give ptr).heap.findLink i (pgrounddown ptr) fuel .head = some prev)
      (hprev : (s.give ptr).heap.load i prev = 0) :
      Step z s (.free t ptr) ((s.give ptr).goto t .panicked)
  | release {s : State T} {t : T} {page : Nat} (h : s.pc t = .releasing page) :
      Step z s (.release t page)
        { s.goto t .idle with held := update s.held page false }
  | store {s : State T} {ptr n a : Nat} (v : Nat) (hlive : s.live ptr = some n)
      (hle : ptr ≤ a) (hlt : a < ptr + n) :
      Step z s (.store ptr a v) (s.setCell (s.heap.cell.set a v))
  | scribble {s : State T} {a : Nat} (v : Nat) (hheld : s.held (pgrounddown a) = false) :
      Step z s (.scribble a v) (s.setCell (s.heap.cell.set a v))

end State

end Xv6K210.Slab
