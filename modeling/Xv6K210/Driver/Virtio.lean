import Mathlib.Algebra.Group.Nat.Defs
import Mathlib.Logic.Function.Basic
import Xv6K210.Base.Simulation

/-!
# The driver of the virtio disk

Source `kernel/driver/virtio_disk.c:137–311`. Processes transfer blocks through chains of three
descriptors out of eight. The driver puts the head of a chain into a ring from which the device
takes it; the device finishes chains in any order and puts their heads into a second ring, which the
interrupt handler reads. The sections of the driver between two calls of `sleep` are steps, and so
is each turn of the loop of the handler; the device takes steps between any two of them.
-/

namespace Xv6K210.Virtio

open Function

/-- `NUM`. -/
def NUM : Nat := 8

/-- `VRING_DESC_F_NEXT`. -/
def descNext : Nat := 1

/-- `VRING_DESC_F_WRITE`. -/
def descWrite : Nat := 2

/-- What the address of a descriptor points to. -/
inductive Addr (B : Type) where
  | null
  | ops (i : Nat)
  | data (b : B)
  | status (i : Nat)
  deriving DecidableEq, Repr

/-- `struct virtq_desc`. -/
structure Desc (B : Type) where
  addr : Addr B
  len : Nat
  flags : Nat
  next : Nat
  deriving DecidableEq, Repr

/-- `struct virtio_blk_req`; its type says whether the disk is written. -/
structure BlkReq where
  write : Bool
  sector : Nat
  deriving DecidableEq, Repr

/-- What is kept about a chain, at the index of its head. -/
structure Info (B : Type) where
  b : Option B
  status : Nat

/-- `struct disk`; the indices of the rings are of 16 bits. -/
structure Disk (B : Type) where
  desc : Nat → Desc B
  availIdx : Nat
  availRing : Nat → Nat
  usedDevIdx : Nat
  usedRing : Nat → Nat
  free : Nat → Bool
  usedIdx : Nat
  info : Nat → Info B
  ops : Nat → BlkReq

variable {Q B D : Type}

namespace Disk

/-- `alloc_desc`. -/
def allocDesc (d : Disk B) : Option (Nat × Disk B) :=
  ((List.range NUM).find? d.free).map fun i ↦
    (i, { d with free := update d.free i false })

/-- `free_desc`, which panics for a descriptor that is free. -/
def freeDesc (d : Disk B) (i : Nat) : Option (Disk B) :=
  if NUM ≤ i ∨ d.free i then none
  else some { d with
    desc := update d.desc i ⟨.null, 0, 0, 0⟩
    free := update d.free i true }

/-- The loop of `free_chain`. -/
def freeChain : Nat → Disk B → Nat → Option (Disk B)
  | 0, _, _ => none
  | turns + 1, d, i =>
    (d.freeDesc i).bind fun d' ↦
      if (d.desc i).flags &&& descNext ≠ 0 then freeChain turns d' (d.desc i).next else some d'

/-- `alloc3_desc`: the descriptors, if there are three, and whether some were taken and freed
again. -/
def alloc3Desc (d : Disk B) : Option (Disk B × Option (Nat × Nat × Nat) × Bool) :=
  match d.allocDesc with
  | none => some (d, none, false)
  | some (i, d1) =>
    match d1.allocDesc with
    | none => (d1.freeDesc i).map fun d ↦ (d, none, true)
    | some (j, d2) =>
      match d2.allocDesc with
      | none => ((d2.freeDesc i).bind fun d ↦ d.freeDesc j).map fun d ↦ (d, none, true)
      | some (k, d3) => some (d3, some (i, j, k), false)

/-- The part of `virtio_disk_rw` that fills in the descriptors and tells the device of the chain. -/
def submit (d : Disk B) (b : B) (sector : Nat) (write : Bool) (i j k : Nat) : Disk B :=
  { d with
    ops := update d.ops i ⟨write, sector⟩
    desc := update (update (update d.desc
      i ⟨.ops i, 16, descNext, j⟩)
      j ⟨.data b, 512, (if write then 0 else descWrite) ||| descNext, k⟩)
      k ⟨.status i, 1, descWrite, 0⟩
    info := update d.info i ⟨some b, 0xff⟩
    availRing := update d.availRing (d.availIdx % NUM) i
    availIdx := (d.availIdx + 1) % 2 ^ 16 }

/-- What the device finds when it follows a chain: the buffer, the sector, the direction, and where
the status goes. The descriptor of the data allows the device to write when the disk is read. -/
def request (d : Disk B) (i : Nat) : Option (B × Nat × Bool × Nat) :=
  let d0 := d.desc i
  let d1 := d.desc d0.next
  let d2 := d.desc d1.next
  match d0.addr, d1.addr, d2.addr with
  | .ops h, .data b, .status x =>
    if d0.flags = descNext ∧ d2.flags = descWrite ∧
        d1.flags = (if (d.ops h).write then 0 else descWrite) ||| descNext then
      some (b, (d.ops h).sector, (d.ops h).write, x)
    else none
  | _, _, _ => none

/-- The device has finished a chain: it writes the status and puts the head into the ring. -/
def finish (d : Disk B) (i x status : Nat) : Disk B :=
  { d with
    info := update d.info x { d.info x with status }
    usedRing := update d.usedRing (d.usedDevIdx % NUM) i
    usedDevIdx := (d.usedDevIdx + 1) % 2 ^ 16 }

end Disk

/-- Where a process is in `virtio_disk_rw`, with its arguments and the descriptors that it has. -/
inductive Pc (B : Type) where
  | out
  /-- in the loop around `alloc3_desc` -/
  | alloc (b : B) (sector : Nat) (write asleep : Bool)
  /-- in the loop that waits for `b->disk` -/
  | wait (b : B) (sector : Nat) (write : Bool) (i j k : Nat) (asleep : Bool)
  deriving DecidableEq, Repr

/-- The buffer of a call. -/
def Pc.buf : Pc B → Option B
  | .out => none
  | .alloc b _ _ _ | .wait b _ _ _ _ _ _ => some b

/-- `wakeup_reason(&disk.free[0])`. -/
def Pc.wakeFree : Pc B → Pc B
  | .alloc b sector write _ => .alloc b sector write false
  | pc => pc

/-- `wakeup_reason(b)`. -/
def Pc.wakeBuf [DecidableEq B] (b : B) : Pc B → Pc B
  | .wait b' sector write i j k asleep => .wait b' sector write i j k (asleep && b' ≠ b)
  | pc => pc

def Pc.awake : Pc B → Pc B
  | .out => .out
  | .alloc b sector write _ => .alloc b sector write false
  | .wait b sector write i j k _ => .wait b sector write i j k false

def Pc.asleep : Pc B → Bool
  | .out => false
  | .alloc _ _ _ asleep | .wait _ _ _ _ _ _ asleep => asleep

/-- The driver with `b->disk` of the buffers, their data, the medium, how far the device has read
the ring and what it works on, and the processes. -/
structure System (Q B D : Type) where
  disk : Disk B
  busy : B → Bool
  data : B → D
  medium : Nat → D
  devIdx : Nat
  working : List Nat
  pc : Q → Pc B

/-- `virtio_disk_init`, before the first call. -/
def System.init (data : B → D) (medium : Nat → D) : System Q B D where
  disk := ⟨fun _ ↦ ⟨.null, 0, 0, 0⟩, 0, fun _ ↦ 0, 0, fun _ ↦ 0, fun i ↦ i < NUM, 0,
    fun _ ↦ ⟨none, 0⟩, fun _ ↦ ⟨false, 0⟩⟩
  busy := fun _ ↦ false
  data := data
  medium := medium
  devIdx := 0
  working := []
  pc := fun _ ↦ .out

/-- A step. -/
inductive Act (Q B D : Type) where
  /-- a buffer that is in no call is changed by its holder -/
  | modify (b : B) (x : D)
  /-- a process calls `virtio_disk_rw` -/
  | call (q : Q) (b : B) (sector : Nat) (write : Bool)
  /-- the process runs up to its next `sleep`, or returns -/
  | run (q : Q)
  /-- a process is woken up for another reason -/
  | wake (q : Q)
  /-- the device takes a chain -/
  | fetch
  /-- the device finishes a chain, with or without success -/
  | perform (i : Nat) (ok : Bool)
  /-- a turn of the loop of `virtio_disk_intr` -/
  | intr

/-- When a step can be taken. A buffer is locked by the process that calls for it. -/
def System.Enabled (s : System Q B D) : Act Q B D → Prop
  | .modify b _ => ∀ q, (s.pc q).buf ≠ some b
  | .call q b _ _ => s.pc q = .out ∧ ∀ q', (s.pc q').buf ≠ some b
  | .run q => s.pc q ≠ .out ∧ (s.pc q).asleep = false
  | .wake _ => True
  | .fetch => s.devIdx ≠ s.disk.availIdx
  | .perform i _ => i ∈ s.working
  | .intr => s.disk.usedIdx ≠ s.disk.usedDevIdx

section

variable [DecidableEq Q] [DecidableEq B]

/-- The part of a call up to its next `sleep`; no result is a panic. -/
def System.run (s : System Q B D) (q : Q) : Option (System Q B D) :=
  match s.pc q with
  | .out => none
  | .alloc b sector write _ =>
    s.disk.alloc3Desc.map fun x ↦
      match x.2.1 with
      | none =>
        { s with
          disk := x.1
          pc := update (if x.2.2 then fun q ↦ (s.pc q).wakeFree else s.pc) q
            (.alloc b sector write true) }
      | some (i, j, k) =>
        { s with
          disk := x.1.submit b sector write i j k
          busy := update s.busy b true
          pc := update s.pc q (.wait b sector write i j k true) }
  | .wait b sector write i j k _ =>
    if s.busy b then
      some { s with pc := update s.pc q (.wait b sector write i j k true) }
    else
      let d := { s.disk with
        info := update s.disk.info i { s.disk.info i with b := none } }
      (d.freeChain NUM i).map fun d ↦
        { s with
          disk := d
          pc := update (fun q ↦ (s.pc q).wakeFree) q .out }

/-- The device finishes a chain; it cannot when the chain is not in order. -/
def System.perform (s : System Q B D) (i : Nat) (ok : Bool) : Option (System Q B D) :=
  (s.disk.request i).map fun x ↦
    let s := { s with working := s.working.erase i }
    if ok then
      let s := { s with disk := s.disk.finish i x.2.2.2 0 }
      if x.2.2.1 then { s with medium := update s.medium x.2.1 (s.data x.1) }
      else { s with data := update s.data x.1 (s.medium x.2.1) }
    else
      { s with disk := s.disk.finish i x.2.2.2 1 }

/-- A turn of the loop of `virtio_disk_intr`, which panics when a transfer failed. -/
def System.intr (s : System Q B D) : Option (System Q B D) :=
  let info := s.disk.info (s.disk.usedRing (s.disk.usedIdx % NUM))
  if info.status ≠ 0 then none
  else
    info.b.map fun b ↦
      { s with
        disk := { s.disk with usedIdx := (s.disk.usedIdx + 1) % 2 ^ 16 }
        busy := update s.busy b false
        pc := fun q ↦ (s.pc q).wakeBuf b }

/-- The effect of a step; no result is a panic, or a device that cannot go on. -/
def System.step (s : System Q B D) : Act Q B D → Option (System Q B D)
  | .modify b x => some { s with data := update s.data b x }
  | .call q b sector write =>
    some { s with pc := update s.pc q (.alloc b sector write false) }
  | .run q => s.run q
  | .wake q => some { s with pc := update s.pc q (s.pc q).awake }
  | .fetch =>
    some { s with
      devIdx := (s.devIdx + 1) % 2 ^ 16
      working := s.working ++ [s.disk.availRing (s.devIdx % NUM)] }
  | .perform i ok => s.perform i ok
  | .intr => s.intr

end

end Xv6K210.Virtio
