import Mathlib.Algebra.Group.Nat.Defs
import Xv6K210.Base.AddressRing

/-!
# The heap of a user program

Sources `user/libc/umalloc.c` and `kernel/syscall/sysproc.c:51–88`. Memory is a function from
addresses to the headers that lie there; addresses are in bytes and a header takes 16 of them. A
loop has a number of rounds, and no result means that they did not suffice.
-/

namespace Xv6K210.Umalloc

/-- `Header`, without its alignment. -/
@[ext]
structure Header where
  ptr : Nat
  size : Nat
  deriving DecidableEq, Repr

/-- The memory of a program, the variable `freep` with 0 for null, and the break. -/
structure Heap where
  hdr : Nat → Header
  freep : Nat
  brk : Nat

namespace Heap

/-- `p->s.ptr`. -/
def next (h : Heap) (p : Nat) : Nat := (h.hdr p).ptr

/-- `p->s.size`. -/
def size (h : Heap) (p : Nat) : Nat := (h.hdr p).size

/-- `p->s.ptr = q`. -/
def setPtr (h : Heap) (p q : Nat) : Heap :=
  { h with hdr := Function.update h.hdr p { h.hdr p with ptr := q } }

/-- `p->s.size = n`. -/
def setSize (h : Heap) (p n : Nat) : Heap :=
  { h with hdr := Function.update h.hdr p { h.hdr p with size := n } }

/-- `freep = p`. -/
def setFreep (h : Heap) (p : Nat) : Heap := { h with freep := p }

end Heap

/-! ### `sbrk` -/

/-- `sys_sbrk`, with the limit of the heap. No address stands for -1. -/
def sbrk (limit : Nat) (n : Int) (h : Heap) : Option Nat × Heap :=
  if 0 ≤ n then
    if h.brk > limit ∨ n.toNat > limit - h.brk then (none, h)
    else (some h.brk, { h with brk := h.brk + n.toNat })
  else
    let shrink := (-n).toNat
    if shrink > h.brk then (none, h) else (some h.brk, { h with brk := h.brk - shrink })

/-- The argument of `sbrk(nu * sizeof(Header))`, which is an `int`. -/
def sbrkArg (nu : Nat) : Int := (BitVec.ofNat 32 (nu * 16)).toInt

/-! ### The allocator -/

/-- The loop of `free`. -/
def freeLoop (h : Heap) (bp : Nat) : Nat → Nat → Option Nat
  | 0, _ => none
  | rounds + 1, p =>
    if ¬ (bp > p ∧ bp < h.next p) then
      if p ≥ h.next p ∧ (bp > p ∨ bp < h.next p) then some p
      else freeLoop h bp rounds (h.next p)
    else some p

/-- `free` behind its loop. -/
def freeAt (bp p : Nat) (h : Heap) : Heap :=
  let h :=
    if bp + 16 * h.size bp = h.next p then
      let h := h.setSize bp ((h.size bp + h.size (h.next p)) % 2 ^ 32)
      h.setPtr bp (h.next (h.next p))
    else h.setPtr bp (h.next p)
  let h :=
    if p + 16 * h.size p = bp then
      let h := h.setSize p ((h.size p + h.size bp) % 2 ^ 32)
      h.setPtr p (h.next bp)
    else h.setPtr p bp
  h.setFreep p

/-- `free`. -/
def free (rounds ap : Nat) (h : Heap) : Option Heap :=
  let bp := ap - 16
  (freeLoop h bp rounds h.freep).map fun p ↦ freeAt bp p h

/-- `morecore`. -/
def morecore (rounds limit nu : Nat) (h : Heap) : Option (Nat × Heap) :=
  let nu := if nu < 4096 then 4096 else nu
  match sbrk limit (sbrkArg nu) h with
  | (none, h) => some (0, h)
  | (some p, h) => (free rounds (p + 16) (h.setSize p nu)).map fun h ↦ (h.freep, h)

/-- `malloc` on a block that is large enough. -/
def take (prevp p nunits : Nat) (h : Heap) : Nat × Heap :=
  if h.size p = nunits then (p + 16, (h.setPtr prevp (h.next p)).setFreep prevp)
  else
    let h := h.setSize p (h.size p - nunits)
    let p := p + 16 * h.size p
    (p + 16, (h.setSize p nunits).setFreep prevp)

/-- The loop of `malloc`. -/
def mallocLoop (rounds limit nunits : Nat) : Nat → Nat → Nat → Heap → Option (Nat × Heap)
  | 0, _, _, _ => none
  | n + 1, prevp, p, h =>
    if h.size p ≥ nunits then some (take prevp p nunits h)
    else if p = h.freep then
      match morecore rounds limit nunits h with
      | none => none
      | some (0, h) => some (0, h)
      | some (p, h) => mallocLoop rounds limit nunits n p (h.next p) h
    else mallocLoop rounds limit nunits n p (h.next p) h

/-- `nunits`. -/
def nunits (nbytes : BitVec 32) : Nat := ((nbytes.toNat + 16 - 1) / 16 + 1) % 2 ^ 32

/-- `malloc`, with the address of `base`. The loops of `free` and `malloc` have `rounds` and `n`
rounds. -/
def malloc (base rounds n limit : Nat) (nbytes : BitVec 32) (h : Heap) : Option (Nat × Heap) :=
  let h := if h.freep = 0 then ((h.setPtr base base).setFreep base).setSize base 0 else h
  mallocLoop rounds limit (nunits nbytes) n h.freep (h.next h.freep) h

/-! ### Runs -/

/-- `MAXUVA`, the end of the memory of a program. -/
def maxuva : Nat := 0x80000000

/-- `MMAP_TOP`, above which `vma_heap_limit` never lies. -/
def mmapTop : Nat := maxuva - 2 ^ 20

/-- Where `base` and the heap of a program lie. -/
structure Space where
  base : Nat
  start : Nat
  base_pos : 0 < base
  base_below : base + 16 ≤ start
  start_le : start ≤ maxuva

/-- A block that was returned: the pointer, and the number of bytes that was asked for. -/
structure Block where
  ptr : Nat
  bytes : Nat
  deriving DecidableEq, Repr

/-- The heap and the blocks that are live. -/
structure State where
  heap : Heap
  live : List Block

/-- What a program can do: it allocates a block, frees one, and writes into its blocks. -/
inductive Step (s : Space) (fine : BitVec 32 → Nat → Heap → Prop) (st : State) : State → Prop
  | malloc {rounds n limit p : Nat} {nbytes : BitVec 32} {h : Heap} : limit ≤ mmapTop →
    fine nbytes limit st.heap → malloc s.base rounds n limit nbytes st.heap = some (p, h) →
    Step s fine st ⟨h, if p = 0 then st.live else ⟨p, nbytes.toNat⟩ :: st.live⟩
  | free {rounds : Nat} {b : Block} {h : Heap} : b ∈ st.live →
    free rounds b.ptr st.heap = some h → Step s fine st ⟨h, st.live.erase b⟩
  | write {hdr : Nat → Header} :
    (∀ a, (∀ b ∈ st.live, a + 16 ≤ b.ptr ∨ b.ptr + b.bytes ≤ a) → hdr a = st.heap.hdr a) →
    Step s fine st ⟨{ st.heap with hdr }, st.live⟩

/-- The states of a program, from the one with an empty heap. -/
inductive Reachable (s : Space) (fine : BitVec 32 → Nat → Heap → Prop) : State → Prop
  | init (hdr : Nat → Header) : Reachable s fine ⟨⟨hdr, 0, s.start⟩, []⟩
  | step {st st' : State} : Reachable s fine st → Step s fine st st' → Reachable s fine st'

end Xv6K210.Umalloc
