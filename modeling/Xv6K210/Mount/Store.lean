import Xv6K210.Mount.Search

/-!
# The entry cache over a volume

Source `kernel/fs/fat32.c:130–145,615–720,835–950`. The routines of module
`Ecache`, with what they do to the volume: `lookup_path` down to the slots of the directories, and
`eput` with its write-back.
-/

namespace Xv6K210.Mount

open Xv6K210.Base Xv6K210.Ecache

/-- The cached entries, their cursors `(cur_clus, clus_cnt)`, and the volume. -/
structure Store (S : Type) where
  cache : Cache S
  cursor : Ent S → Nat × Nat
  vol : Fs.Volume

/-- The routines on entries and volume. -/
abbrev Mounted (S α : Type) := Prog (Store S) α

variable {S α : Type} [DecidableEq S]

/-- The text of a panic. -/
def panicText : Fs.Panic → String
  | .noClusters => "no clusters"
  | .offsetOutOfRange => "offset out of range"
  | .relocClus => "reloc_clus"
  | .emakeNotDir => "emake: not dir"
  | .emakeNotAligned => "emake: not aligned"
  | .enextNotDir => "enext not dir"
  | .enextEpValid => "enext ep valid"
  | .enextNotAlign => "enext not align"
  | .nullCount => "null count"
  | .nameOutOfEntry => "name out of entry"
  | .enextDiverges => "enext diverges"
  | .elock => "elock"
  | .shortFilewrite => "short filewrite"

/-- A routine on the cache alone. -/
def lift (x : Cached S α) : Mounted S α := fun st ↦
  match x st.cache with
  | .ok (a, c) => .ok (a, { st with cache := c })
  | .error msg => .error msg

/-- The outcome of a routine on the volume. -/
def ofVolume (x : Except Fs.Panic α) : Mounted S α :=
  match x with
  | .ok a => pure a
  | .error p => Prog.halt (panicText p)

/-- A cached entry with its cursor, as the routines on the volume have it. -/
def Store.dirent (st : Store S) (e : Ent S) : Fs.Dirent :=
  let d := st.cache.ent e
  { filename := d.filename, attr := d.attr, firstClus := d.firstClus, fileSize := d.fileSize,
    curClus := (st.cursor e).1, clusCnt := (st.cursor e).2, dirty := d.dirty, valid := d.valid,
    ref := d.ref, off := d.off }

/-- What a routine on the volume leaves of an entry. -/
def setDirent (e : Ent S) (x : Fs.Dirent) : Mounted S Unit :=
  modify fun st ↦ { st with
    cache := { st.cache with
      ent := Function.update st.cache.ent e
        { st.cache.ent e with
          filename := x.filename, attr := x.attr, firstClus := x.firstClus,
          fileSize := x.fileSize, dirty := x.dirty, valid := x.valid } }
    cursor := Function.update st.cursor e (x.curClus, x.clusCnt) }

/-- What a routine leaves of the volume. -/
def setVol (v : Fs.Volume) : Mounted S Unit := modify fun st ↦ { st with vol := v }

/-! ### Giving back -/

/-- `etrunc`. -/
def etrunc (e : Ent S) : Mounted S Unit := do
  let st ← get
  let r := Fs.etrunc st.vol (st.dirent e)
  setVol r.1
  setDirent e r.2

/-- `eupdate`, of an entry of the directory `p`. -/
def eupdate (e p : Ent S) : Mounted S Unit := do
  let st ← get
  let r ← ofVolume (Fs.eupdate st.vol (st.dirent p) (st.dirent e))
  setVol r.1
  setDirent p r.2.1
  setDirent e r.2.2

/-- The part of `eput` that frees the clusters of a removed entry, or writes the fields of any
other to its directory `p`. -/
def flush (e p : Ent S) : Mounted S Unit := do
  let st ← get
  if (st.cache.ent e).valid = -1 then
    etrunc e
  else
    lift (elock p)
    eupdate e p
    lift (eunlock p)

/-- `eput` with the recursion up to the root, of depth `n` at most. -/
def eputLoop : Nat → Ent S → Mounted S Unit
  | 0, _ => Prog.halt "eput: recursion"
  | n + 1, e => do
    let st ← get
    match e with
    | .root => lift (setEnt .root fun d ↦ { d with ref := d.ref - 1 })
    | .entry s =>
      if (st.cache.ent e).valid ≠ 0 ∧ (st.cache.ent e).ref = 1 then
        match (st.cache.ent e).parent with
        | none => Prog.halt "eput: no parent"
        | some p =>
          lift (modify fun c ↦ { c with order := toFront s c.order })
          flush e p
          lift (setEnt e fun d ↦ { d with ref := d.ref - 1 })
          eputLoop n p
      else
        lift (setEnt e fun d ↦ { d with ref := d.ref - 1 })

/-- `eput`. -/
def eput (e : Ent S) : Mounted S Unit := do
  let st ← get
  eputLoop (st.cache.order.length + 1) e

/-! ### Lookups -/

/-- The part of `dirlookup` behind a miss: the slot `s` is filled from the directory, or given
back. With the entry goes the offset that is left in `*poff`. -/
def searchMiss (dp : Ent S) (s : S) (filename : List UInt8) :
    Mounted S (Option (Ent S) × Nat) := do
  let st ← get
  let r ← ofVolume (searchDir st.vol filename (st.dirent dp) (st.dirent (.entry s)))
  setDirent dp r.dp
  setDirent (.entry s) r.ep
  if r.found then
    lift (fill s dp r.ep.filename ⟨r.ep.attr, r.ep.firstClus, r.ep.fileSize, r.off⟩)
    pure (some (.entry s), 0)
  else
    eput (.entry s)
    pure (none, r.off)

/-- `dirlookup`. -/
def dirlookup (dp : Ent S) (filename : List UInt8) : Mounted S (Option (Ent S) × Nat) := do
  let st ← get
  if (st.cache.ent dp).isDir = false then
    Prog.halt "dirlookup not DIR"
  else if sameName filename [Fs.dotCh] then
    lift (edup dp)
    pure (some dp, 0)
  else if sameName filename [Fs.dotCh, Fs.dotCh] then
    match dp, (st.cache.ent dp).parent with
    | .root, _ =>
      lift (edup .root)
      pure (some .root, 0)
    | .entry _, none => pure (none, 0)
    | .entry _, some p =>
      lift (edup p)
      pure (some p, 0)
  else if (st.cache.ent dp).valid ≠ 1 then
    pure (none, 0)
  else
    let s ← lift (eget dp filename)
    let st ← get
    if (st.cache.ent (.entry s)).valid = 1 then
      pure (some (.entry s), 0)
    else
      searchMiss dp s filename

/-- The loop of `lookup_path`; with the entry goes the element that is left in `name`. -/
def lookupElems (parent : Bool) : List (List UInt8) → Ent S →
    Mounted S (Option (Ent S × List UInt8))
  | [], e =>
    if parent then do
      eput e
      pure none
    else
      pure (some (e, []))
  | name :: rest, e => do
    lift (elock e)
    let st ← get
    if (st.cache.ent e).isDir = false then
      lift (eunlock e)
      eput e
      pure none
    else if parent ∧ rest = [] then
      lift (eunlock e)
      pure (some (e, name))
    else
      match ← dirlookup e name with
      | (none, _) =>
        lift (eunlock e)
        eput e
        pure none
      | (some next, _) =>
        lift (eunlock e)
        eput e
        lookupElems parent rest next

/-- `lookup_path`, for a process in the directory `cwd`. -/
def lookupPath (cwd : Ent S) (path : List UInt8) (parent : Bool) :
    Mounted S (Option (Ent S × List UInt8)) := do
  match path with
  | [] => pure none
  | c :: _ =>
    let start := if c = 0x2f then .root else cwd
    lift (edup start)
    lookupElems parent (elements path) start

/-- `ename`. -/
def ename (cwd : Ent S) (path : List UInt8) : Mounted S (Option (Ent S)) := do
  match ← lookupPath cwd path false with
  | none => pure none
  | some (e, _) => pure (some e)

end Xv6K210.Mount
