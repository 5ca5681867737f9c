import Xv6K210.Base.Prog
import Xv6K210.Base.Recency
import Xv6K210.Fs.Dir

/-!
# The entry cache

Sources `kernel/fs/fat32.c:105–128,385–415,562–720,835–950` and
`kernel/syscall/sysfile.c:109–166`. The directory entries that are in use, and those that were
lately: a tree of slots that point to their parents, and a recency list. What a search of a
directory on the disk finds is an answer of the environment, so that what is proved holds for
every disk; the directory format is the subject of module `Fs`.
-/

namespace Xv6K210.Ecache

open Xv6K210.Base Xv6K210.Fs

variable {S : Type} [DecidableEq S]

/-- A cached entry: `root`, or a slot of `ecache.entries`. -/
inductive Ent (S : Type) where
  | root
  | entry (s : S)
  deriving DecidableEq

/-- `struct dirent` (`fat32.h:27–55`). Two fields are not the code's: `born` numbers what the slot
holds among all that slots ever held, and `home` is that number for the directory of the entry. -/
structure Dirent (S : Type) where
  filename : List UInt8
  attr : UInt8
  firstClus : Nat
  fileSize : Nat
  off : Nat
  dirty : Bool
  valid : Int
  ref : Nat
  parent : Option (Ent S)
  born : Nat
  home : Nat

/-- What the search of a directory on the disk finds. -/
structure Found where
  attr : UInt8
  firstClus : Nat
  fileSize : Nat
  off : Nat
  deriving DecidableEq

/-- The cache, the list from `root.next` to `root.prev`, how often a slot was filled, and the
answers of the disk: to searches for a name, to `isdirempty`, and to allocations of a cluster. -/
structure Cache (S : Type) where
  ent : Ent S → Dirent S
  order : List S
  fills : Nat
  found : List (Option Found)
  empty : List Bool
  clusters : List Nat

/-- The routines on the cache. -/
abbrev Cached (S α : Type) := Prog (Cache S) α

/-- The entry is a directory. -/
def Dirent.isDir (d : Dirent S) : Bool := d.attr &&& attrDirectory ≠ 0

/-- The entry is a device node. -/
def Dirent.isDevice (d : Dirent S) : Bool := d.attr &&& attrDevice ≠ 0

/-- Change an entry. -/
def setEnt (e : Ent S) (f : Dirent S → Dirent S) : Cached S Unit :=
  modify fun c ↦ { c with ent := Function.update c.ent e (f (c.ent e)) }

/-! ### References -/

/-- `elock`, without the sleep lock. -/
def elock (e : Ent S) : Cached S Unit := do
  let c ← get
  if (c.ent e).ref < 1 then Prog.halt "elock" else pure ()

/-- `eunlock`, without the sleep lock. -/
def eunlock (e : Ent S) : Cached S Unit := do
  let c ← get
  if (c.ent e).ref < 1 then Prog.halt "eunlock" else pure ()

/-- `edup`. -/
def edup (e : Ent S) : Cached S Unit := setEnt e fun d ↦ { d with ref := d.ref + 1 }

/-- The comparison of names, `strncmp` over `FAT32_MAX_FILENAME` bytes. -/
def sameName (a b : List UInt8) : Bool := a.take fat32MaxFilename = b.take fat32MaxFilename

/-- The slot caches the entry `name` of `parent`. -/
def Cache.caches (c : Cache S) (parent : Ent S) (name : List UInt8) (s : S) : Bool :=
  (c.ent (.entry s)).valid = 1 ∧ (c.ent (.entry s)).parent = some parent ∧
    sameName (c.ent (.entry s)).filename name

/-- The first loop of `eget`: the slot that caches an entry. -/
def Cache.hit (c : Cache S) (parent : Ent S) (name : List UInt8) : Option S :=
  c.order.find? (c.caches parent name)

/-- The second loop of `eget`: the slot that is recycled. -/
def Cache.victim (c : Cache S) : Option S :=
  lastWith (fun s ↦ (c.ent (.entry s)).ref = 0) c.order

/-- `eget`. -/
def eget (parent : Ent S) (name : List UInt8) : Cached S S := do
  let c ← get
  match c.hit parent name with
  | some s =>
    edup (.entry s)
    Prog.doIf ((c.ent (.entry s)).ref = 0) (edup parent)
    pure s
  | none =>
    match c.victim with
    | some s =>
      setEnt (.entry s) fun d ↦ { d with ref := 1, off := 0, valid := 0, dirty := false }
      pure s
    | none => Prog.halt "eget: insufficient ecache"

/-- `eupdate`: the fields go to the disk. -/
def eupdate (e : Ent S) : Cached S Unit :=
  setEnt e fun d ↦ if d.dirty = false ∨ d.valid ≠ 1 then d else { d with dirty := false }

/-- `etrunc`. The clusters are freed on the disk. -/
def etrunc (e : Ent S) : Cached S Unit :=
  setEnt e fun d ↦ { d with fileSize := 0, firstClus := 0, dirty := true }

/-- The part of `eput` that frees the clusters of a removed entry, or writes the fields of any
other to its directory `p`. -/
def flush (e p : Ent S) : Cached S Unit := do
  let c ← get
  if (c.ent e).valid = -1 then
    etrunc e
  else
    elock p
    eupdate e
    eunlock p

/-- `eput` with the recursion up to the root, of depth `n` at most. -/
def eputLoop : Nat → Ent S → Cached S Unit
  | 0, _ => Prog.halt "eput: recursion"
  | n + 1, e => do
    let c ← get
    match e with
    | .root => setEnt .root fun d ↦ { d with ref := d.ref - 1 }
    | .entry s =>
      if (c.ent e).valid ≠ 0 ∧ (c.ent e).ref = 1 then
        match (c.ent e).parent with
        | none => Prog.halt "eput: no parent"
        | some p =>
          modify fun c ↦ { c with order := toFront s c.order }
          flush e p
          setEnt e fun d ↦ { d with ref := d.ref - 1 }
          eputLoop n p
      else
        setEnt e fun d ↦ { d with ref := d.ref - 1 }

/-- `eput`. Every level of the recursion but the last takes the last reference of a slot. -/
def eput (e : Ent S) : Cached S Unit := do
  let c ← get
  eputLoop (c.order.length + 1) e

/-! ### Entries -/

/-- A slot is filled with an entry of the directory `dp`, which gets a reference. -/
def fill (s : S) (dp : Ent S) (name : List UInt8) (x : Found) : Cached S Unit := do
  edup dp
  modify fun c ↦ { c with
    ent := Function.update c.ent (.entry s)
      { c.ent (.entry s) with
        filename := name, attr := x.attr, firstClus := x.firstClus,
        fileSize := x.fileSize, off := x.off, dirty := false, valid := 1, parent := some dp,
        born := c.fills, home := (c.ent dp).born }
    fills := c.fills + 1 }

/-- The loop of `dirlookup` over the directory on the disk. -/
def search : Cached S (Option Found) := do
  let c ← get
  match c.found with
  | [] => pure none
  | x :: xs =>
    set { c with found := xs }
    pure x

/-- `alloc_clus`. -/
def allocClus : Cached S Nat := do
  let c ← get
  match c.clusters with
  | [] => Prog.halt "no clusters"
  | n :: ns =>
    set { c with clusters := ns }
    pure n

/-- `dirlookup`. -/
def dirlookup (dp : Ent S) (filename : List UInt8) : Cached S (Option (Ent S)) := do
  let c ← get
  if (c.ent dp).isDir = false then
    Prog.halt "dirlookup not DIR"
  else if sameName filename [dotCh] then
    edup dp
    pure (some dp)
  else if sameName filename [dotCh, dotCh] then
    match dp, (c.ent dp).parent with
    | .root, _ =>
      edup .root
      pure (some .root)
    | .entry _, none => pure none
    | .entry _, some p =>
      edup p
      pure (some p)
  else if (c.ent dp).valid ≠ 1 then
    pure none
  else
    let s ← eget dp filename
    let c ← get
    if (c.ent (.entry s)).valid = 1 then
      pure (some (.entry s))
    else
      match ← search with
      | some x =>
        fill s dp filename x
        pure (some (.entry s))
      | none =>
        eput (.entry s)
        pure none

/-- `ealloc`, in a directory whose entry `name` is at offset `off` if it is new. -/
def ealloc (dp : Ent S) (name : List UInt8) (attr : UInt8) (off : Nat) :
    Cached S (Option (Ent S)) := do
  let c ← get
  if (c.ent dp).isDir = false then
    Prog.halt "ealloc not dir"
  else if (c.ent dp).valid ≠ 1 then
    pure none
  else
    match formatname name with
    | none => pure none
    | some name =>
      match ← dirlookup dp name with
      | some e => pure (some e)
      | none =>
        let s ← eget dp name
        elock (.entry s)
        if attr = attrDirectory then
          let clus ← allocClus
          fill s dp (name.take fat32MaxFilename) ⟨eallocAttr attr, clus, 0, off⟩
        else
          fill s dp (name.take fat32MaxFilename) ⟨eallocAttr attr, 0, 0, off⟩
        eunlock (.entry s)
        pure (some (.entry s))

/-- `eremove`: the entry goes from the disk. -/
def eremove (e : Ent S) : Cached S Unit :=
  setEnt e fun d ↦ if d.valid ≠ 1 then d else { d with valid := -1 }

/-- `isdirempty`. -/
def isdirempty : Cached S Bool := do
  let c ← get
  match c.empty with
  | [] => pure true
  | x :: xs =>
    set { c with empty := xs }
    pure x

/-! ### Paths -/

/-- The elements that `skipelem` yields one after the other. -/
def elements (path : List UInt8) : List (List UInt8) :=
  ((path.splitOn 0x2f).filter (· ≠ [])).map (·.take fat32MaxFilename)

/-- The loop of `lookup_path`; with the entry goes the element that is left in `name`. -/
def lookupElems (parent : Bool) : List (List UInt8) → Ent S →
    Cached S (Option (Ent S × List UInt8))
  | [], e =>
    if parent then do
      eput e
      pure none
    else
      pure (some (e, []))
  | name :: rest, e => do
    elock e
    let c ← get
    if (c.ent e).isDir = false then
      eunlock e
      eput e
      pure none
    else if parent ∧ rest = [] then
      eunlock e
      pure (some (e, name))
    else
      match ← dirlookup e name with
      | none =>
        eunlock e
        eput e
        pure none
      | some next =>
        eunlock e
        eput e
        lookupElems parent rest next

/-- `lookup_path`, for a process in the directory `cwd`. -/
def lookupPath (cwd : Ent S) (path : List UInt8) (parent : Bool) :
    Cached S (Option (Ent S × List UInt8)) := do
  match path with
  | [] => pure none
  | c :: _ =>
    let start := if c = 0x2f then .root else cwd
    edup start
    lookupElems parent (elements path) start

/-- `ename`. -/
def ename (cwd : Ent S) (path : List UInt8) : Cached S (Option (Ent S)) := do
  match ← lookupPath cwd path false with
  | none => pure none
  | some (e, _) => pure (some e)

/-- `enameparent`. -/
def enameparent (cwd : Ent S) (path : List UInt8) : Cached S (Option (Ent S × List UInt8)) :=
  lookupPath cwd path true

/-! ### Creation and removal -/

/-- The check of `create` that the entry is of the kind that was asked for. -/
def Dirent.fits (d : Dirent S) (kind : NodeKind) : Bool :=
  match kind with
  | .dir => d.isDir
  | .device => d.isDevice
  | .file _ => !d.isDir

/-- `create`. A device node gets its numbers. -/
def create (cwd : Ent S) (path : List UInt8) (kind : NodeKind) (major minor off : Nat) :
    Cached S (Option (Ent S)) := do
  match ← enameparent cwd path with
  | none => pure none
  | some (dp, name) =>
    elock dp
    match ← ealloc dp name kind.attr off with
    | none =>
      eunlock dp
      eput dp
      pure none
    | some e =>
      let c ← get
      if (c.ent e).fits kind = false then
        eunlock dp
        eput e
        eput dp
        pure none
      else
        Prog.doIf (kind = .device)
          (setEnt e fun d ↦ { d with firstClus := major, fileSize := minor, dirty := true })
        eunlock dp
        eput dp
        elock e
        pure (some e)

/-- `sys_remove` refuses a path whose last element is `.`. -/
def endsInDot (path : List UInt8) : Bool :=
  ((path.splitOn 0x2f).filter (· ≠ [])).getLast? = some [dotCh]

/-- `sys_remove`. -/
def sysRemove (cwd : Ent S) (path : List UInt8) : Cached S Bool := do
  if path = [] ∨ endsInDot path then
    pure false
  else
    match ← ename cwd path with
    | none => pure false
    | some e =>
      elock e
      let c ← get
      let empty ← if (c.ent e).isDir then isdirempty else pure true
      if empty = false then
        eunlock e
        eput e
        pure false
      else
        match (c.ent e).parent with
        | none => Prog.halt "elock"
        | some p =>
          elock p
          eremove e
          eunlock p
          eunlock e
          eput e
          pure true

end Xv6K210.Ecache
