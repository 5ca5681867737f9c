import Mathlib.Data.List.FinRange
import Mathlib.Logic.Function.Basic
import Xv6K210.Base.Prog

/-!
# The buffer cache

Sources `kernel/fs/bio.c:22–227` and `kernel/fs/disk.c:26–42`. A bucket is the list
of its buffers from `head.next` on, with the clock hand, which stands at a buffer or at the head.
The regions that are executed under one bucket lock are routines of their own. The disk driver
does not look at the device number of a buffer.
-/

namespace Xv6K210.Buffer

open Xv6K210.Base

/-- `NBUCKET`. -/
def nbucket : Nat := 13

/-- `HASH`. -/
def hash (blockno : Nat) : Fin nbucket := ⟨blockno % 13, Nat.mod_lt _ (by decide)⟩

/-- `struct buf`. `locked` tells whether the sleep lock is held. -/
structure Buf (D : Type) where
  valid : Bool
  dev : Nat
  blockno : Nat
  refcnt : Nat
  referenced : Bool
  locked : Bool
  data : D

/-- `struct hashbuf`. The hand is `none` at the head. -/
structure Bucket (B : Type) where
  list : List B
  hand : Option B

/-- `bcache`, and the sectors of the disk. -/
structure Bcache (B D : Type) where
  buf : B → Buf D
  bucket : Fin nbucket → Bucket B
  disk : Nat → D

/-- The routines on the buffer cache. -/
abbrev Bio (B D α : Type) := Prog (Bcache B D) α

variable {B D : Type} [DecidableEq B]

/-- The buffer behind `b` in a bucket, or the head. -/
def next (l : List B) (b : B) : Option B := l[l.idxOf b + 1]?

/-- The buffer is the cache of the block. -/
def Buf.holds (x : Buf D) (dev blockno : Nat) : Bool := x.dev = dev ∧ x.blockno = blockno

/-- Change a buffer. -/
def setBuf (b : B) (f : Buf D → Buf D) : Bio B D Unit :=
  modify fun c ↦ { c with buf := Function.update c.buf b (f (c.buf b)) }

/-- Change a bucket. -/
def setBucket (i : Fin nbucket) (f : Bucket B → Bucket B) : Bio B D Unit :=
  modify fun c ↦ { c with bucket := Function.update c.bucket i (f (c.bucket i)) }

/-! ### The clock -/

/-- The loop of `clock_victim`, with the number of buffers that may still be scanned. From the head
the hand goes on to the first buffer. -/
def clockLoop (i : Fin nbucket) : Nat → Bio B D (Option B)
  | 0 => pure none
  | n + 1 => do
    let c ← get
    match (c.bucket i).hand.or (c.bucket i).list.head? with
    | none => pure none
    | some b =>
      setBucket i fun k ↦ { k with hand := next k.list b }
      if (c.buf b).refcnt ≠ 0 then
        clockLoop i n
      else if (c.buf b).referenced then
        setBuf b fun x ↦ { x with referenced := false }
        clockLoop i n
      else
        pure (some b)

/-- `clock_victim`, in a cache of `nbuf` buffers. -/
def clockVictim (nbuf : Nat) (i : Fin nbucket) : Bio B D (Option B) := clockLoop i (2 * nbuf)

/-! ### `bget` -/

/-- The first region of `bget`: the buffer that caches the block. -/
def lookup (dev blockno : Nat) : Bio B D (Option B) := do
  let c ← get
  match (c.bucket (hash blockno)).list.find? fun b ↦ (c.buf b).holds dev blockno with
  | none => pure none
  | some b =>
    setBuf b fun x ↦ { x with refcnt := x.refcnt + 1, referenced := true }
    pure (some b)

/-- The second region, for one bucket: a victim is taken off its list. -/
def detach (nbuf : Nat) (i : Fin nbucket) : Bio B D (Option B) := do
  match ← clockVictim nbuf i with
  | none => pure none
  | some b =>
    setBucket i fun k ↦ { k with list := k.list.erase b }
    pure (some b)

/-- The buckets in the order in which `bget` looks for a victim. -/
def bucketsFrom (i : Fin nbucket) : List (Fin nbucket) :=
  (List.range nbucket).map fun k ↦ hash (i + k)

/-- The search for a victim. -/
def findVictim (nbuf : Nat) : List (Fin nbucket) → Bio B D (Option B)
  | [] => pure none
  | i :: is => do
    match ← detach nbuf i with
    | none => findVictim nbuf is
    | some b => pure (some b)

/-- The third region: the victim becomes the cache of the block. -/
def insert (b : B) (dev blockno : Nat) : Bio B D Unit := do
  setBucket (hash blockno) fun k ↦ { k with list := b :: k.list }
  setBuf b fun x ↦ { x with
    dev, blockno, valid := false, refcnt := 1, referenced := true }

/-- `acquiresleep`. One process would sleep for ever where the lock is held. -/
def acquiresleep (b : B) : Bio B D Unit := do
  let c ← get
  if (c.buf b).locked then Prog.halt "acquiresleep"
  else setBuf b fun x ↦ { x with locked := true }

/-- `bget`. -/
def bget (nbuf dev blockno : Nat) : Bio B D B := do
  match ← lookup dev blockno with
  | some b =>
    acquiresleep b
    pure b
  | none =>
    match ← findVictim nbuf (bucketsFrom (hash blockno)) with
    | none => Prog.halt "bget: no buffers"
    | some b =>
      insert b dev blockno
      acquiresleep b
      pure b

/-! ### Contents -/

/-- `disk_read`. -/
def diskRead (b : B) : Bio B D Unit := do
  let c ← get
  setBuf b fun x ↦ { x with data := c.disk x.blockno }

/-- `disk_write`. -/
def diskWrite (b : B) : Bio B D Unit :=
  modify fun c ↦ { c with disk := Function.update c.disk (c.buf b).blockno (c.buf b).data }

/-- What `bread` does with the locked buffer. -/
def fill (b : B) : Bio B D Unit := do
  let c ← get
  Prog.doIf ((c.buf b).valid = false) do
    diskRead b
    setBuf b fun x ↦ { x with valid := true }

/-- `bread`. -/
def bread (nbuf dev blockno : Nat) : Bio B D B := do
  let b ← bget nbuf dev blockno
  fill b
  pure b

/-- `bwrite`. -/
def bwrite (b : B) : Bio B D Unit := do
  let c ← get
  if (c.buf b).locked = false then Prog.halt "bwrite" else diskWrite b

/-- A change of the contents, and `bwrite`. -/
def modifyWrite (b : B) (d : D) : Bio B D Unit := do
  setBuf b fun x ↦ { x with data := d }
  bwrite b

/-- The first part of `brelse`, the release of the sleep lock. -/
def releasesleep (b : B) : Bio B D Unit := do
  let c ← get
  if (c.buf b).locked = false then Prog.halt "brelse"
  else setBuf b fun x ↦ { x with locked := false }

/-- The region of `brelse`. -/
def unref (b : B) : Bio B D Unit :=
  setBuf b fun x ↦ { x with refcnt := x.refcnt - 1, referenced := true }

/-- `brelse`. -/
def brelse (b : B) : Bio B D Unit := do
  releasesleep b
  unref b

/-- `binvalidate`, in one bucket. -/
def invalidateBucket (dev : Nat) (i : Fin nbucket) : Bio B D Unit :=
  modify fun c ↦ { c with
    buf := fun b ↦
      if b ∈ (c.bucket i).list ∧ (c.buf b).dev = dev ∧ (c.buf b).refcnt = 0 then
        { c.buf b with valid := false }
      else c.buf b }

/-- `binvalidate`. -/
def binvalidate (dev : Nat) : Bio B D Unit :=
  Prog.forEach (invalidateBucket dev) (List.finRange nbucket)

/-- `binit`: the buffers go round the buckets, each to the front of its list. -/
def binit (nbuf : Nat) (d : D) (disk : Nat → D) : Bcache (Fin nbuf) D where
  buf := fun _ ↦ ⟨false, 0, 0, 0, false, false, d⟩
  bucket := fun i ↦ ⟨((List.finRange nbuf).filter fun b ↦ hash b.val = i).reverse, none⟩
  disk := disk

end Xv6K210.Buffer
