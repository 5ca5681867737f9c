import Mathlib.Data.List.ReduceOption
import Mathlib.Data.Finset.Card
import Xv6K210.Base.Runs

/-!
# The table of spin locks

Source `kernel/lock/spinlock.c:7–53`, `kernel/lock/sleeplock.c:6–13`, and the
constructors and destructors of the objects that carry a lock (`kernel/ipc/pipe.c:17–69`,
`kernel/vm/mmap/mmap.c:62–132`, `mmap_anon.c:20–48`, `mmap_kbuf.c:26–86`,
`kernel/devsw/spidev.c`, `sdcarddev.c`, `i2cdev.c`, `oledfb.c`). Every `initlock` puts the
address of its lock into a table of fixed size. `freelock` would take it out again, and no
destructor calls it.
-/

namespace Xv6K210.Lock

open Xv6K210.Base

/-- `NLOCK`. -/
def nlock : Nat := 500

/-- The table, and the lock-carrying objects that are allocated. An object is known by the
address of its lock. -/
structure Registry where
  locks : List (Option Nat)
  live : Finset Nat

/-- The loop of `findslot`: the first free slot of the table takes the lock. -/
def fillSlot (lk : Nat) : List (Option Nat) → Option (List (Option Nat))
  | [] => none
  | none :: locks => some (some lk :: locks)
  | some x :: locks => (fillSlot lk locks).map (some x :: ·)

/-- `findslot` (`spinlock.c:27–39`); no result is the panic. -/
def findslot (r : Registry) (lk : Nat) : Option Registry :=
  (fillSlot lk r.locks).map fun locks ↦ { r with locks }

/-- The objects whose lock is initialised when they are made. -/
inductive Locked where
  /-- `pipealloc`, freed by the last `pipeclose` -/
  | pipe
  /-- `mmap_object_alloc`, freed by the last `mmap_object_put` or a failed `mmap_object_create` -/
  | mmapObject
  /-- `anon_object_create`, freed by `anon_object_destroy` -/
  | anonObject
  /-- `kbuf_create`, freed by `kbuf_destroy` -/
  | kbuf
  /-- the context of an open device file (`spidev_open`, `sdcarddev_open`, `i2cdev_open`,
  `oledfb_open`), freed by its close or a failed open -/
  | deviceContext
  deriving DecidableEq, Repr

/-- What happens to these objects. -/
inductive LockOp where
  /-- the allocator returned `lk` and the constructor called `initlock` -/
  | create (kind : Locked) (lk : Nat)
  /-- the destructor gave the memory back -/
  | destroy (kind : Locked) (lk : Nat)
  deriving DecidableEq, Repr

/-- A constructor (`initlock` after the allocation), or a destructor. -/
def Registry.apply (r : Registry) : LockOp → Option Registry
  | .create _ lk => findslot { r with live := insert lk r.live } lk
  | .destroy _ lk => some { r with live := r.live.erase lk }

/-- One operation: the allocator hands out memory that is not in use, and an object is freed
while it is allocated. -/
def LockStep (r : Registry) (op : LockOp) (r' : Registry) : Prop :=
  r.apply op = some r' ∧
    match op with
    | .create _ lk => lk ∉ r.live
    | .destroy _ lk => lk ∈ r.live

/-- The table after the boot, with the locks that are never freed. -/
def boot (statics : List Nat) : Registry where
  locks := statics.map some ++ List.replicate (nlock - statics.length) none
  live := statics.toFinset

/-- The table is in order: it points to allocated objects only, and the next `initlock` finds a
slot while fewer than `NLOCK` lock-carrying objects are allocated. -/
structure TableOk (r : Registry) : Prop where
  allocated : ∀ lk, some lk ∈ r.locks → lk ∈ r.live
  room : r.live.card < nlock → ∀ lk, (findslot r lk).isSome

/-! ### One registration -/

/-- A registration adds one pointer and keeps the size of the table. -/
theorem fillSlot_spec {lk : Nat} {locks locks' : List (Option Nat)}
    (h : fillSlot lk locks = some locks') : locks'.length = locks.length ∧
      locks'.reduceOption.Perm (lk :: locks.reduceOption) := by
  induction locks generalizing locks' with
  | nil => cases h
  | cons x locks ih =>
    cases x with
    | none =>
      simp only [fillSlot, Option.some.injEq] at h
      subst h
      simp [List.reduceOption_cons_of_none, List.reduceOption_cons_of_some]
    | some y =>
      simp only [fillSlot, Option.map_eq_some_iff] at h
      obtain ⟨ls, hls, rfl⟩ := h
      obtain ⟨hlen, hperm⟩ := ih hls
      constructor
      · simp [hlen]
      · rw [List.reduceOption_cons_of_some, List.reduceOption_cons_of_some]
        exact (hperm.cons y).trans (List.Perm.swap lk y _)

/-- A registration fails only when every slot is taken. -/
theorem fillSlot_isSome (lk : Nat) {locks : List (Option Nat)}
    (h : locks.reduceOption.length < locks.length) : (fillSlot lk locks).isSome := by
  induction locks with
  | nil => simp at h
  | cons x locks ih =>
    cases x with
    | none => rfl
    | some y =>
      rw [List.reduceOption_cons_of_some, List.length_cons, List.length_cons] at h
      have hrest := ih (by omega)
      simpa [fillSlot] using hrest

/-- Every allocated object is in the table. -/
structure Registered (r : Registry) : Prop where
  size : r.locks.length = nlock
  listed : ∀ lk ∈ r.live, some lk ∈ r.locks

/-- Nothing but the allocated objects is in the table, each once. -/
structure Exact (r : Registry) : Prop where
  size : r.locks.length = nlock
  nodup : r.locks.reduceOption.Nodup
  same : ∀ lk, some lk ∈ r.locks ↔ lk ∈ r.live

private theorem mem_fillSlot {lk x : Nat} {locks locks' : List (Option Nat)}
    (h : fillSlot lk locks = some locks') : some x ∈ locks' ↔ x = lk ∨ some x ∈ locks := by
  rw [← List.reduceOption_mem_iff, (fillSlot_spec h).2.mem_iff, List.mem_cons,
    List.reduceOption_mem_iff]

private theorem create_spec {r r' : Registry} {kind : Locked} {lk : Nat}
    (h : r.apply (.create kind lk) = some r') : ∃ locks, fillSlot lk r.locks = some locks ∧
      r' = ⟨locks, insert lk r.live⟩ := by
  simp only [Registry.apply, findslot, Option.map_eq_some_iff] at h
  obtain ⟨locks, hfill, rfl⟩ := h
  exact ⟨locks, hfill, rfl⟩

/-- Operations keep every allocated object in the table. -/
theorem Registered.step {r r' : Registry} {op : LockOp} (h : Registered r)
    (hstep : LockStep r op r') : Registered r' := by
  cases op with
  | create kind lk =>
    obtain ⟨locks, hfill, rfl⟩ := create_spec hstep.1
    constructor
    · rw [(fillSlot_spec hfill).1]
      exact h.size
    · intro x hx
      rw [mem_fillSlot hfill]
      rcases Finset.mem_insert.mp hx with hx | hx
      · exact .inl hx
      · exact .inr (h.listed x hx)
  | destroy kind lk =>
    have hr := hstep.1
    simp only [Registry.apply, Option.some.injEq] at hr
    subst hr
    constructor
    · exact h.size
    · intro x hx
      exact h.listed x (Finset.mem_of_mem_erase hx)

/-- A creation keeps the table exact. -/
theorem Exact.create {r r' : Registry} {kind : Locked} {lk : Nat} (h : Exact r)
    (hstep : LockStep r (.create kind lk) r') : Exact r' := by
  have hfresh : lk ∉ r.live := hstep.2
  obtain ⟨locks, hfill, rfl⟩ := create_spec hstep.1
  obtain ⟨hlen, hperm⟩ := fillSlot_spec hfill
  constructor
  · rw [hlen]
    exact h.size
  · rw [hperm.nodup_iff, List.nodup_cons, List.reduceOption_mem_iff, h.same]
    exact ⟨hfresh, h.nodup⟩
  · intro x
    rw [mem_fillSlot hfill, Finset.mem_insert, h.same]

/-- An exact table is in order. -/
theorem Exact.tableOk {r : Registry} (h : Exact r) : TableOk r := by
  constructor
  · intro lk hlk
    exact (h.same lk).mp hlk
  · intro hcard lk
    have hset : r.locks.reduceOption.toFinset = r.live := by
      ext x
      rw [List.mem_toFinset, List.reduceOption_mem_iff, h.same]
    have hlen : r.locks.reduceOption.length = r.live.card := by
      rw [← hset, List.toFinset_card_of_nodup h.nodup]
    have hsome := fillSlot_isSome lk
      (show r.locks.reduceOption.length < _ by rw [hlen, h.size]; exact hcard)
    simpa [findslot] using hsome

/-- After a destruction the table still points to the object. -/
theorem Registered.not_tableOk_destroy {r r' : Registry} {kind : Locked} {lk : Nat}
    (h : Registered r) (hstep : LockStep r (.destroy kind lk) r') : ¬ TableOk r' := by
  intro hok
  have hlive : lk ∈ r.live := hstep.2
  have hr := hstep.1
  simp only [Registry.apply, Option.some.injEq] at hr
  subst hr
  have hgone := hok.allocated lk (h.listed lk hlive)
  exact Finset.notMem_erase lk r.live hgone

/-! ### Whole runs -/

/-- The boot leaves an exact table. -/
theorem boot_exact {statics : List Nat} (hn : statics.Nodup) (hlen : statics.length ≤ nlock) :
    Exact (boot statics) := by
  have hred : (boot statics).locks.reduceOption = statics := by
    rw [boot, List.reduceOption_append, List.reduceOption_replicate_none, List.append_nil]
    rw [List.reduceOption, List.filterMap_map]
    exact List.filterMap_some
  constructor
  · simp only [boot, List.length_append, List.length_map, List.length_replicate]
    omega
  · rw [hred]
    exact hn
  · intro lk
    rw [← List.reduceOption_mem_iff, hred, boot, List.mem_toFinset]

/-- An operation after which the table is in order. -/
def OrderlyStep (r : Registry) (op : LockOp) (r' : Registry) : Prop :=
  LockStep r op r' ∧ TableOk r'

/-- The operation frees an object whose lock was initialised. -/
def LockOp.IsDestroy : LockOp → Prop
  | .create _ _ => False
  | .destroy _ _ => True

private theorem orderly_of_creates {r r' : Registry} {ops : List LockOp}
    (h : Runs LockStep r ops r') (hr : Exact r) (hops : ∀ op ∈ ops, ¬ op.IsDestroy) :
    Runs OrderlyStep r ops r' := by
  induction h with
  | nil r => exact .nil r
  | @cons r r1 r' op ops head _ ih =>
    cases op with
    | create kind lk =>
      have h1 := hr.create head
      apply Runs.cons ⟨head, h1.tableOk⟩
      apply ih h1
      intro op hop
      exact hops op (List.mem_cons_of_mem _ hop)
    | destroy kind lk => exact absurd trivial (hops _ (List.mem_cons_self ..))

private theorem creates_of_orderly {r r' : Registry} {ops : List LockOp}
    (h : Runs OrderlyStep r ops r') (hr : Registered r) : ∀ op ∈ ops, ¬ op.IsDestroy := by
  induction h with
  | nil r =>
    intro op hop
    cases hop
  | @cons r r1 r' op ops head _ ih =>
    intro op' hop'
    rcases List.mem_cons.mp hop' with rfl | hop'
    · cases op' with
      | create kind lk => exact id
      | destroy kind lk => exact absurd head.2 (hr.not_tableOk_destroy head.1)
    · exact ih (hr.step head.1) op' hop'

/-- The table is in order after each operation of a run exactly when the run frees none of the
objects whose lock was initialised. -/
theorem table_ok_iff {statics : List Nat} (hn : statics.Nodup) (hlen : statics.length ≤ nlock)
    {ops : List LockOp} {r : Registry} (h : Runs LockStep (boot statics) ops r) :
    Runs OrderlyStep (boot statics) ops r ↔ ∀ op ∈ ops, ¬ op.IsDestroy := by
  have hexact := boot_exact hn hlen
  constructor
  · intro hrun
    apply creates_of_orderly hrun
    exact ⟨hexact.size, fun lk hlk ↦ (hexact.same lk).mpr hlk⟩
  · exact orderly_of_creates h hexact

/-- A pipe and a shared anonymous mapping are made after the boot. -/
theorem table_ok_iff_small : ∃ r, Runs OrderlyStep (boot [1, 2])
    [.create .pipe 8, .create .mmapObject 9, .create .anonObject 10] r := by
  have hrun : ∃ r, Runs LockStep (boot [1, 2])
      [.create .pipe 8, .create .mmapObject 9, .create .anonObject 10] r :=
    ⟨_, .cons ⟨rfl, by decide⟩ (.cons ⟨rfl, by decide⟩ (.cons ⟨rfl, by decide⟩ (.nil _)))⟩
  obtain ⟨r, hr⟩ := hrun
  refine ⟨r, (table_ok_iff (by decide) (by decide) hr).mpr ?_⟩
  intro op hop
  simp only [List.mem_cons, List.not_mem_nil, or_false] at hop
  rcases hop with rfl | rfl | rfl <;> exact id

/-- A pipe is made and closed: the table keeps a pointer to the freed page. -/
theorem not_table_ok_small : ∃ r, Runs LockStep (boot [1, 2])
    [.create .pipe 8, .destroy .pipe 8] r ∧ ¬ TableOk r := by
  refine ⟨_, .cons ⟨rfl, by decide⟩ (.cons ⟨rfl, by decide⟩ (.nil _)), ?_⟩
  intro hok
  exact absurd (hok.allocated 8 (by decide)) (by decide)

end Xv6K210.Lock
