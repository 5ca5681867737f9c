import Xv6K210.Fs.FileIo
import Xv6K210.Fs.DirFrame

/-!
# Directory listing and file status

Source `kernel/fs/file.c:104–124,248–273` (`filestat`, `dirnext`), `estat`
(`kernel/fs/fat32.c:718–724`) and `kernel/include/stat.h`. Local variables on the kernel stack
begin with arbitrary contents, so they are arguments here.
-/

namespace Xv6K210.Fs

open Xv6K210.Base

/-- `STAT_MAX_NAME`. -/
abbrev statMaxName : Nat := 32

/-- `sizeof(struct stat)`: the name in bytes 0–32, `dev` at 36, `type` at 40 and `size` at 48. -/
abbrev sizeofStat : Nat := 56

/-- `strncpy` of a C string: its first `n` characters, then zeros. -/
def strncpy (s : List UInt8) (n : Nat) : List UInt8 :=
  s.take n ++ List.replicate (n - s.length) 0

/-- `st->type`: `T_DIR` or `T_FILE`. -/
def statType (attr : UInt8) : Nat := if attr &&& attrDirectory ≠ 0 then 1 else 2

/-- `estat` (`fat32.c:718–724`) of an entry on device `dev`, into the structure `st`. -/
def estat (e : Dirent) (dev : UInt8) (st : ByteMem) : ByteMem :=
  let st := store st 0 (strncpy e.filename statMaxName)
  let st := store st 40 (leBytes 2 (statType e.attr))
  let st := store st 36 (leBytes 4 dev.toNat)
  store st 48 (leBytes 8 e.fileSize)

/-- `copyout` of a `struct stat`: the result of the caller and the bytes that reach the user. -/
def putStat (mem : Nat → Bool) (addr : Nat) (st : ByteMem) : Bool × List UInt8 :=
  let r := copyout mem addr (load st 0 sizeofStat)
  (r.2, r.1)

/-- `f->type`. -/
inductive FdType where
  | none
  | pipe
  | entry
  | device
  deriving DecidableEq, Repr

/-- `filestat` (`file.c:106–124`) of a file with entry `e` on device `dev`; `st` is what the stack
holds where the structure is. -/
def filestat (type : FdType) (e : Dirent) (dev : UInt8) (mem : Nat → Bool) (addr : Nat)
    (st : ByteMem) : Except Panic (Int × List UInt8) :=
  match type with
  | .entry =>
    match elock e with
    | .error p => .error p
    | .ok () =>
      let r := putStat mem addr (estat e dev st)
      .ok (if r.1 then 0 else -1, r.2)
  | _ => .ok (-1, [])

/-- What the stack holds where `dirnext` has its variables `de`, with its device number, and
`st`. -/
structure DirnextLocals where
  de : Dirent
  dev : UInt8
  st : ByteMem

/-- The loop of `dirnext` (`file.c:259–261`), which skips deleted slots. A round moves the offset
forward by a slot at least. -/
def dirnextLoop (v : Volume) : Nat → Dirent → FileEntry → Dirent → Nat →
    Except Panic (EnextOut × FileEntry)
  | 0, _, _, _, _ => .error .enextDiverges
  | fuel + 1, dp, f, de, count =>
    match enext v dp de f.off (some count) with
    | .error p => .error p
    | .ok r =>
      let count := r.count.getD count
      if r.ret = 0 then
        dirnextLoop v fuel r.dp { f with off := (f.off + count * 32) % 2 ^ 32 } r.ep count
      else .ok (r, f)

/-- `dirnext` (`file.c:249–273`) of a file with entry `dp`: directory cursor, file, result and the
bytes that reach the user. -/
def dirnext (v : Volume) (dp : Dirent) (f : FileEntry) (mem : Nat → Bool) (addr : Nat)
    (s : DirnextLocals) : Except Panic (Dirent × FileEntry × Int × List UInt8) :=
  if f.readable = false ∨ dp.attr &&& attrDirectory = 0 then .ok (dp, f, -1, [])
  else
    match elock dp with
    | .error p => .error p
    | .ok () =>
      match dirnextLoop v (enextFuel v) dp f s.de 0 with
      | .error p => .error p
      | .ok (r, f) =>
        if r.ret = -1 then .ok (r.dp, f, 0, [])
        else
          let st := putStat mem addr (estat r.ep s.dev s.st)
          .ok (r.dp, { f with off := (f.off + r.count.getD 0 * 32) % 2 ^ 32 },
            if st.1 then 1 else -1, st.2)

/-! ### What is left of the stack -/

/-- `strncpy` fills its buffer. -/
@[simp] theorem length_strncpy (s : List UInt8) (n : Nat) : (strncpy s n).length = n := by
  rw [strncpy, List.length_append, List.length_take, List.length_replicate]
  omega

/-- The first 32 bytes are the name, whatever was there. -/
theorem estat_name (e : Dirent) (dev : UInt8) (st : ByteMem) {k : Nat} (hk : k < statMaxName) :
    estat e dev st k = (strncpy e.filename statMaxName).getD k 0 := by
  have hlen := length_strncpy e.filename statMaxName
  simp only [estat]
  rw [store_apply_lt _ _ _ _ (by simp only [statMaxName] at hk; omega),
    store_apply_lt _ _ _ _ (by simp only [statMaxName] at hk; omega),
    store_apply_lt _ _ _ _ (by simp only [statMaxName] at hk; omega)]
  have := store_apply_mem st 0 (strncpy e.filename statMaxName) k (by omega)
  rw [Nat.zero_add] at this
  rw [this, List.getD_eq_getElem?_getD, List.getElem?_eq_getElem (by omega), Option.getD_some]

/-- The last byte of the name field keeps what the stack held. -/
theorem estat_left (e : Dirent) (dev : UInt8) (st : ByteMem) : estat e dev st 32 = st 32 := by
  simp only [estat]
  rw [store_apply_lt _ _ _ _ (by decide), store_apply_lt _ _ _ _ (by decide),
    store_apply_lt _ _ _ _ (by decide), store_apply_ge _ _ _ _ (by rw [length_strncpy]; decide)]

private theorem eitherCopyout_take (mem : Nat → Bool) : ∀ (k : Nat) (bs : List UInt8),
    eitherCopyout mem k bs =
      (bs.take (goodRun mem k bs.length), decide (goodRun mem k bs.length = bs.length))
  | _, [] => rfl
  | k, b :: bs => by
    rw [eitherCopyout, eitherCopyout_take mem (k + 1) bs, List.length_cons, goodRun]
    split
    · simp
    · simp

/-- How many bytes of a `struct stat` reach the user. -/
def statRun (mem : Nat → Bool) (addr : Nat) : Nat :=
  if beyondUser addr sizeofStat then 0 else goodRun mem addr sizeofStat

/-- `copyout` of a `struct stat`, by the bytes that reach the user. -/
theorem putStat_eq (mem : Nat → Bool) (addr : Nat) (st : ByteMem) :
    putStat mem addr st =
      (decide (statRun mem addr = sizeofStat), (load st 0 sizeofStat).take (statRun mem addr)) := by
  rw [putStat, copyout, length_load, statRun]
  split
  · rfl
  · simp only [eitherCopyout_take, length_load]

/-- No more than 32 bytes reach the user: the address is refused, or one of the first 33 bytes
faults. -/
theorem statRun_le_iff (mem : Nat → Bool) (addr : Nat) :
    statRun mem addr ≤ 32 ↔
      beyondUser addr sizeofStat = true ∨ ∃ j ≤ 32, mem (addr + j) = false := by
  rw [statRun]
  split
  · next h => exact iff_of_true (by decide) (Or.inl h)
  · next h =>
    constructor
    · intro hle
      have hbad := goodRun_bad mem addr sizeofStat (Nat.lt_of_le_of_lt hle (by decide))
      exact Or.inr ⟨_, hle, hbad⟩
    · rintro (hout | ⟨j, hj, hbad⟩)
      · exact absurd hout h
      by_contra hgt
      have := goodRun_good mem addr sizeofStat (addr + j) (by omega) (by omega)
      rw [hbad] at this
      cases this

/-- Both runs of `filestat` and of `dirnext`, from one state with any two stacks, end alike. -/
def StackFree {α β : Type} (run : α → β) : Prop := ∀ s s' : α, run s = run s'

/-- What `filestat` hands out is free of the stack when the structure is not handed out, or no
byte behind the first 32 of it. -/
theorem filestat_stackFree_iff (type : FdType) (e : Dirent) (dev : UInt8) (mem : Nat → Bool)
    (addr : Nat) :
    StackFree (filestat type e dev mem addr) ↔ type ≠ .entry ∨ e.ref < 1 ∨
      beyondUser addr sizeofStat = true ∨ ∃ j ≤ 32, mem (addr + j) = false := by
  rw [← statRun_le_iff]
  by_cases ht : type = .entry
  · subst ht
    by_cases hr : e.ref < 1
    · refine iff_of_true (fun s s' ↦ ?_) (Or.inr (Or.inl hr))
      rw [filestat, filestat, elock, if_pos hr]
    · have hrun : ∀ st, filestat .entry e dev mem addr st =
          .ok (if statRun mem addr = sizeofStat then 0 else -1,
            (load (estat e dev st) 0 sizeofStat).take (statRun mem addr)) := by
        intro st
        rw [filestat, elock, if_neg hr]
        simp only [putStat_eq, decide_eq_true_eq]
      have hne : ¬ FdType.entry ≠ FdType.entry := not_not.mpr rfl
      simp only [hne, hr, false_or]
      constructor
      · intro h
        by_contra hgt
        have heq := h (fun _ ↦ 0) (fun _ ↦ 1)
        rw [hrun, hrun] at heq
        simp only [Except.ok.injEq, Prod.mk.injEq, true_and] at heq
        have hbyte := congrArg (fun l ↦ l[32]?) heq
        simp only [List.getElem?_take_of_lt (Nat.not_le.mp hgt), getElem?_load, estat_left,
          Nat.zero_add] at hbyte
        exact absurd hbyte (by decide)
      · intro hle s s'
        rw [hrun, hrun]
        have hload : ∀ st, (load (estat e dev st) 0 sizeofStat).take (statRun mem addr) =
            (strncpy e.filename statMaxName).take (statRun mem addr) := by
          intro st
          apply List.ext_getElem?
          intro k
          by_cases hk : k < statRun mem addr
          · rw [List.getElem?_take_of_lt hk, List.getElem?_take_of_lt hk, getElem?_load,
              if_pos (by simp only [sizeofStat]; omega), Nat.zero_add,
              estat_name e dev st (by simp only [statMaxName]; omega),
              List.getD_eq_getElem?_getD,
              List.getElem?_eq_getElem (by rw [length_strncpy]; simp only [statMaxName]; omega),
              Option.getD_some]
          · rw [List.getElem?_eq_none (by rw [List.length_take]; omega),
              List.getElem?_eq_none (by rw [List.length_take]; omega)]
        rw [hload, hload]
  · refine iff_of_true (fun s s' ↦ ?_) (Or.inl ht)
    cases type with
    | entry => exact absurd rfl ht
    | none => rfl
    | pipe => rfl
    | device => rfl

/-! ### The entry that `enext` fills -/

private theorem relocForward_keep : ∀ (k : Nat) (v : Volume) (e : Dirent),
    ∃ r, relocForward false k v e = .ok r
  | 0, v, e => ⟨_, rfl⟩
  | k + 1, v, e => by
    simp only [relocForward, Bool.false_eq_true, if_false]
    split
    · exact ⟨_, rfl⟩
    · exact relocForward_keep k v _

private theorem relocBack_error {v : Volume} {p : Panic} : ∀ (k : Nat) (e : Dirent),
    relocBack v k e = .error p → p = .relocClus
  | 0, e, h => by cases h
  | k + 1, e, h => by
    simp only [relocBack] at h
    split at h
    · injection h with h
      exact h.symm
    · exact relocBack_error k _ h

/-- Without allocation `reloc_clus` has one panic, its own. -/
theorem relocClus_error {v : Volume} {e : Dirent} {off : Nat} {p : Panic}
    (h : relocClus v e off false = .error p) : p = .relocClus := by
  obtain ⟨⟨v1, e1, b⟩, hf⟩ := relocForward_keep (off / v.geom.bytsPerClus - e.clusCnt) v e
  simp only [relocClus, hf] at h
  cases b with
  | false => cases h
  | true =>
    dsimp only at h
    split at h
    · split at h
      · next p' hb =>
        injection h with h
        rw [← h]
        exact relocBack_error _ _ hb
      · cases h
    · cases h

private theorem enextSlot_error {v : Volume} {dp : Dirent} {off : Nat} {p : Panic}
    (h : enextSlot v dp off = .error p) : p = .relocClus ∨ p = .offsetOutOfRange := by
  simp only [enextSlot, readClus, rwClus] at h
  split at h
  · next hr =>
    injection h with h
    rw [← h]
    exact Or.inl (relocClus_error hr)
  · split at h
    · cases h
    · split at h
      · next hc =>
        split at hc
        · next hx =>
          split at hx
          · simp_all
          · cases hx
        · cases hc
      · cases h

/-- A result of `enext` that is not the panic about its entry, and leaves `valid` alone. -/
def KeepsValid (valid : Int) : Except Panic EnextOut → Prop
  | .error p => p ≠ .enextEpValid
  | .ok r => r.ep.valid = valid

/-- The loop of `enext` does not look at `ep->valid`. -/
theorem enextLoop_valid {v : Volume} {ep : Dirent} : ∀ (fuel : Nat) (dp : Dirent) (buf : ByteMem)
    (off cnt : Nat) (live : Bool) (count : Option Nat),
    KeepsValid ep.valid (enextLoop v ep fuel dp buf off cnt live count)
  | 0, dp, buf, off, cnt, live, count => by simp [enextLoop, KeepsValid]
  | fuel + 1, dp, buf, off, cnt, live, count => by
    have ih := @enextLoop_valid v ep fuel
    rw [enextLoop]
    cases hs : enextSlot v dp off with
    | error p => rcases enextSlot_error hs with h | h <;> simp [h, KeepsValid]
    | ok r =>
      dsimp only
      by_cases hend : r.2.length ≠ 32 ∨ r.2.getD 0 0 = endOfEntry
      · rw [if_pos hend]
        rfl
      rw [if_neg hend]
      by_cases hempty : r.2.getD 0 0 = emptyEntry
      · rw [if_pos hempty]
        exact ih ..
      rw [if_neg hempty]
      by_cases hcnt : cnt ≠ 0
      · rw [if_pos hcnt]
        cases live with
        | true => rfl
        | false => exact (by decide : Panic.nullCount ≠ .enextEpValid)
      rw [if_neg hcnt]
      by_cases hlong : slotAttr r.2 = attrLongName
      · rw [if_pos hlong]
        split
        · exact (by decide : Panic.nullCount ≠ .enextEpValid)
        · split
          · exact (by decide : Panic.nameOutOfEntry ≠ .enextEpValid)
          · exact ih ..
      · rw [if_neg hlong]
        rfl

/-- On a directory, `enext` panics about its entry at once or not at all. -/
theorem enext_valid {v : Volume} {dp ep : Dirent} (off : Nat) (count : Option Nat)
    (hd : dp.attr &&& attrDirectory ≠ 0) (he : ep.valid = 0) :
    KeepsValid 0 (enext v dp ep off count) := by
  rw [enext, if_neg hd, if_neg (not_not.mpr he)]
  split
  · simp [KeepsValid]
  · split
    · exact he
    · rw [← he]
      exact enextLoop_valid ..

private theorem enext_busy {v : Volume} {dp ep : Dirent} (off : Nat) (count : Option Nat)
    (hd : dp.attr &&& attrDirectory ≠ 0) (he : ep.valid ≠ 0) :
    enext v dp ep off count = .error .enextEpValid := by
  rw [enext, if_neg hd, if_pos he]

private theorem dirnextLoop_valid {v : Volume} : ∀ (fuel : Nat) {dp de : Dirent} {f : FileEntry}
    {count : Nat}, dp.attr &&& attrDirectory ≠ 0 → de.valid = 0 →
    dirnextLoop v fuel dp f de count ≠ .error .enextEpValid
  | 0, dp, de, f, count, _, _ => by simp [dirnextLoop]
  | fuel + 1, dp, de, f, count, hd, he => by
    have hk := enext_valid (v := v) f.off (some count) hd he
    simp only [dirnextLoop]
    cases hn : enext v dp de f.off (some count) with
    | error p =>
      rw [hn] at hk
      dsimp only
      intro h
      injection h with h
      exact hk h
    | ok r =>
      rw [hn] at hk
      dsimp only
      split
      · apply dirnextLoop_valid fuel _ hk
        rw [(enext_sought hn).entry]
        exact hd
      · simp

/-- `dirnext` depends on the stack as soon as it comes to its loop: the contents of `de.valid`
decide whether it panics. -/
theorem dirnext_stackFree_iff (v : Volume) (dp : Dirent) (f : FileEntry) (mem : Nat → Bool)
    (addr : Nat) :
    StackFree (dirnext v dp f mem addr) ↔
      f.readable = false ∨ dp.attr &&& attrDirectory = 0 ∨ dp.ref < 1 := by
  by_cases hg : f.readable = false ∨ dp.attr &&& attrDirectory = 0
  · refine iff_of_true (fun s s' ↦ ?_) ?_
    · rw [dirnext, dirnext, if_pos hg, if_pos hg]
    · rcases hg with h | h
      · exact Or.inl h
      · exact Or.inr (Or.inl h)
  by_cases hr : dp.ref < 1
  · refine iff_of_true (fun s s' ↦ ?_) (Or.inr (Or.inr hr))
    rw [dirnext, dirnext, if_neg hg, if_neg hg, elock, if_pos hr]
  · rw [← or_assoc]
    refine iff_of_false (fun h ↦ ?_) (not_or.mpr ⟨hg, hr⟩)
    have hd : dp.attr &&& attrDirectory ≠ 0 := fun hz ↦ hg (Or.inr hz)
    have heq := h ⟨{ valid := 1 }, 0, fun _ ↦ 0⟩ ⟨{}, 0, fun _ ↦ 0⟩
    have hbusy : dirnext v dp f mem addr ⟨{ valid := 1 }, 0, fun _ ↦ 0⟩ =
        .error .enextEpValid := by
      rw [dirnext, if_neg hg, elock, if_neg hr]
      simp only [enextFuel, dirnextLoop]
      rw [enext_busy _ _ hd (by decide)]
    have hclear : dirnextLoop v (enextFuel v) dp f {} 0 ≠ .error .enextEpValid :=
      dirnextLoop_valid _ hd rfl
    rw [hbusy, dirnext, if_neg hg, elock, if_neg hr] at heq
    dsimp only at heq
    split at heq
    · next p hp =>
      injection heq with heq
      exact hclear (hp.trans (by rw [heq]))
    · split at heq <;> cases heq

/-- `dirnext` and `filestat` do not depend on the stack exactly when they return before their
structures are used, and `filestat` also when no byte behind the first 32 reaches the user. -/
theorem status_stackFree_iff (v : Volume) (dp : Dirent) (f : FileEntry) (type : FdType)
    (dev : UInt8) (mem : Nat → Bool) (addr : Nat) :
    (StackFree (dirnext v dp f mem addr) ↔
      f.readable = false ∨ dp.attr &&& attrDirectory = 0 ∨ dp.ref < 1) ∧
    (StackFree (filestat type dp dev mem addr) ↔ type ≠ .entry ∨ dp.ref < 1 ∨
      beyondUser addr sizeofStat = true ∨ ∃ j ≤ 32, mem (addr + j) = false) :=
  ⟨dirnext_stackFree_iff v dp f mem addr, filestat_stackFree_iff type dp dev mem addr⟩

/-- The root directory of the small volume, open for reading: a nonzero `valid` on the stack is a
panic, a zero one is not. -/
theorem not_stackFree_root :
    ¬ StackFree (dirnext smallVolume smallRoot (openAt 64) (fun _ ↦ true) 0x1000) := by
  rw [dirnext_stackFree_iff]
  decide

/-! ### Listing a directory -/

/-- A call of `dirnext`: its user buffer, and the stack under `st`. -/
structure DirCall where
  mem : Nat → Bool
  addr : Nat
  st : ByteMem

/-- Repeated calls of `dirnext` on one file, each with its local entry cleared. -/
def dirnextCalls (v : Volume) (dp : Dirent) (f : FileEntry) :
    List DirCall → Except Panic (Dirent × FileEntry × List (Int × List UInt8))
  | [] => .ok (dp, f, [])
  | c :: cs =>
    match dirnext v dp f c.mem c.addr ⟨{}, 0, c.st⟩ with
    | .error p => .error p
    | .ok (dp, f, ret, out) =>
      match dirnextCalls v dp f cs with
      | .error p => .error p
      | .ok (dp, f, outs) => .ok (dp, f, (ret, out) :: outs)

/-- A `struct stat` that describes the entry: its name, up to 32 characters, its type and size. -/
structure StatOf (e : Dirent) (bs : List UInt8) : Prop where
  length : bs.length = sizeofStat
  name : bs.take statMaxName = strncpy e.filename statMaxName
  type : leNat ((bs.drop 40).take 2) = statType e.attr
  size : leNat ((bs.drop 48).take 8) = e.fileSize

/-- The call reports the entry: it returns 1 with the entry's `struct stat` in the buffer, or `-1`
when the buffer does not take it. -/
def DirCall.Reports (c : DirCall) (e : Dirent) (out : Int × List UInt8) : Prop :=
  if statRun c.mem c.addr = sizeofStat then out.1 = 1 ∧ StatOf e out.2 else out.1 = -1

private theorem drop_take_load (m : ByteMem) {a n : Nat} (h : a + n ≤ sizeofStat) :
    ((load m 0 sizeofStat).drop a).take n = load m a n := by
  apply List.ext_getElem?
  intro k
  by_cases hk : k < n
  · rw [List.getElem?_take_of_lt hk, List.getElem?_drop, getElem?_load, getElem?_load,
      if_pos (by omega), if_pos hk, Nat.zero_add]
  · rw [List.getElem?_eq_none (by rw [List.length_take]; omega),
      List.getElem?_eq_none (by rw [length_load]; omega)]

/-- `estat` describes the entry. -/
theorem statOf_estat {e : Dirent} (hs : e.fileSize < 2 ^ 32) (dev : UInt8) (st : ByteMem) :
    StatOf e (load (estat e dev st) 0 sizeofStat) where
  length := length_load ..
  name := by
    have hd := drop_take_load (estat e dev st) (a := 0) (n := statMaxName) (by decide)
    rw [List.drop_zero] at hd
    rw [hd]
    apply List.ext_getElem?
    intro k
    by_cases hk : k < statMaxName
    · rw [getElem?_load, if_pos hk, Nat.zero_add, estat_name e dev st hk,
        List.getD_eq_getElem?_getD, List.getElem?_eq_getElem (by rwa [length_strncpy]),
        Option.getD_some]
    · rw [List.getElem?_eq_none (by rw [length_load]; omega),
        List.getElem?_eq_none (by rw [length_strncpy]; omega)]
  type := by
    rw [drop_take_load _ (by decide)]
    simp only [estat]
    rw [load_store_of_disjoint _ _ _ _ _ (Or.inl (by decide)),
      load_store_of_disjoint _ _ _ _ _ (Or.inr (by rw [length_leBytes]))]
    have := load_store_self (store st 0 (strncpy e.filename statMaxName)) 40
      (leBytes 2 (statType e.attr))
    rw [length_leBytes] at this
    rw [this, leNat_leBytes, statType]
    split <;> rfl
  size := by
    rw [drop_take_load _ (by decide)]
    simp only [estat]
    have := load_store_self (store (store (store st 0 (strncpy e.filename statMaxName)) 40
      (leBytes 2 (statType e.attr))) 36 (leBytes 4 dev.toNat)) 48 (leBytes 8 e.fileSize)
    rw [length_leBytes] at this
    rw [this, leNat_leBytes]
    exact Nat.mod_eq_of_lt (by omega)

/-- The size in a slot has 32 bits. -/
theorem sneFileSize_lt (de : List UInt8) : sneFileSize de < 2 ^ 32 := by
  have hlt := leNat_lt ((de.drop 28).take 4)
  have hlen : ((de.drop 28).take 4).length ≤ 4 := by
    rw [List.length_take]
    exact Nat.min_le_left _ _
  calc sneFileSize de < 256 ^ ((de.drop 28).take 4).length := hlt
    _ ≤ 256 ^ 4 := Nat.pow_le_pow_right (by decide) hlen
    _ = 2 ^ 32 := by decide

private theorem reports_putStat (c : DirCall) {e : Dirent} (hs : e.fileSize < 2 ^ 32) :
    c.Reports e (if (putStat c.mem c.addr (estat e 0 c.st)).1 then 1 else -1,
      (putStat c.mem c.addr (estat e 0 c.st)).2) := by
  rw [putStat_eq, DirCall.Reports]
  split
  · next hfull =>
    refine ⟨by simp [hfull], ?_⟩
    rw [hfull, List.take_of_length_le (by rw [length_load])]
    exact statOf_estat hs 0 c.st
  · next hcut => simp [hcut]

section List

variable {v : Volume} {l : List Nat} {dp : Dirent} {f : FileEntry} {p : Nat}

private theorem dirnext_open (href : 1 ≤ dp.ref) (hr : f.readable = true)
    (hd : dp.attr &&& attrDirectory ≠ 0) (c : DirCall) :
    dirnext v dp f c.mem c.addr ⟨{}, 0, c.st⟩ =
      match dirnextLoop v (enextFuel v) dp f {} 0 with
      | .error p => .error p
      | .ok (r, f) =>
        if r.ret = -1 then .ok (r.dp, f, 0, [])
        else
          let st := putStat c.mem c.addr (estat r.ep 0 c.st)
          .ok (r.dp, { f with off := (f.off + r.count.getD 0 * 32) % 2 ^ 32 },
            if st.1 then 1 else -1, st.2) := by
  have hg : ¬ (f.readable = false ∨ dp.attr &&& attrDirectory = 0) := by
    rw [hr]
    simpa using hd
  rw [dirnext, if_neg hg, elock, if_neg (by omega)]

-- At an entry the loop makes one round.
private theorem dirnextLoop_live {longs : List (List UInt8)} {short : List UInt8}
    {items : List DirItem} (fuel count : Nat) (h : LiveDir v l dp) (hoff : f.off = 32 * p)
    (himg : ItemsFrom v l p (.live longs short :: items)) :
    ∃ dp', dirnextLoop v (fuel + 1) dp f {} count =
        .ok (⟨dp', decodeEntry {} longs short, some (longs.length + 1), 1⟩, f) ∧
      SameEntry dp dp' ∧ OnChain dp' l := by
  obtain ⟨dp1, hnext, hse, ho⟩ := enext_live {} (some count) h rfl himg
  refine ⟨dp1, ?_, hse, ho⟩
  rw [dirnextLoop, hoff, hnext]
  dsimp only
  rw [if_neg (by decide)]

/-- A call at deleted slots, if any, and an entry behind them reports the entry and moves the
offset behind it. -/
theorem dirnext_entry {dels longs : List (List UInt8)} {short : List UInt8} {rest : List DirItem}
    (h : LiveDir v l dp) (href : 1 ≤ dp.ref) (hr : f.readable = true) (hoff : f.off = 32 * p)
    (himg : ImageFrom v l p (dels.map .deleted ++ .live longs short :: rest))
    (hp : 32 * p ≤ l.length * v.geom.bytsPerClus) (c : DirCall) :
    ∃ dp' out, dirnext v dp f c.mem c.addr ⟨{}, 0, c.st⟩ =
        .ok (dp', { f with off := 32 * (p + dels.length + longs.length + 1) }, out) ∧
      c.Reports (decodeEntry {} longs short) out ∧ SameEntry dp dp' ∧ OnChain dp' l := by
  have hb := himg.bound
  have hin := himg.inside hp
  rw [slotsOf_deleted_append, List.length_append, slotsOf_cons, List.length_append] at hb hin
  have hslen : (DirItem.live longs short).slots.length = longs.length + 1 := by
    simp [DirItem.slots]
  rw [hslen] at hb hin
  have hsize : (decodeEntry {} longs short).fileSize < 2 ^ 32 := sneFileSize_lt short
  have hrep := reports_putStat c hsize
  have hitems := himg.drop_deleted.items
  obtain ⟨fuel, hfuel⟩ := Nat.exists_eq_add_of_le (enextFuel_image h.chain h.nodup (n := 1)
    (by omega))
  rw [show 1 + 1 + fuel = fuel + 1 + 1 by omega] at hfuel
  rw [dirnext_open href hr h.isDir, hfuel]
  by_cases hd : dels = []
  · subst hd
    obtain ⟨dp1, hloop, hse, ho⟩ := dirnextLoop_live (fuel + 1) 0 h hoff hitems
    refine ⟨dp1, _, ?_, hrep, hse, ho⟩
    rw [hloop]
    dsimp only
    rw [if_neg (by decide), hoff, Option.getD_some, List.length_nil, Nat.add_zero,
      show (32 * p + (longs.length + 1) * 32) % 2 ^ 32 = 32 * (p + longs.length + 1) by
        rw [List.length_nil] at hb
        omega]
    rfl
  · obtain ⟨dp1, hgap, hse1, ho1⟩ := enext_gap {} (some 0) h rfl hd himg.items hp
    have hoff1 : (f.off + dels.length * 32) % 2 ^ 32 = 32 * (p + dels.length) := by omega
    obtain ⟨dp2, hloop, hse2, ho2⟩ := dirnextLoop_live
      (f := { f with off := (f.off + dels.length * 32) % 2 ^ 32 }) fuel dels.length
      (h.move hse1 ho1) hoff1 hitems
    refine ⟨dp2, _, ?_, hrep, hse1.trans hse2, ho2⟩
    rw [dirnextLoop, hoff, hgap]
    dsimp only
    rw [if_pos rfl, Option.getD_some, ← hoff]
    change (match dirnextLoop v (fuel + 1) dp1 _ {} dels.length with
      | .error p => _
      | .ok (r, f) => _) = _
    rw [hloop]
    dsimp only
    rw [if_neg (by decide), hoff1, Option.getD_some,
      show (32 * (p + dels.length) + (longs.length + 1) * 32) % 2 ^ 32 =
        32 * (p + dels.length + longs.length + 1) by omega]

/-- A call behind the last entry reports the end and changes nothing. -/
theorem dirnext_end {dels : List (List UInt8)} (h : LiveDir v l dp) (href : 1 ≤ dp.ref)
    (hr : f.readable = true) (hoff : f.off = 32 * p)
    (himg : ImageFrom v l p (dels.map .deleted)) (hp : 32 * p ≤ l.length * v.geom.bytsPerClus)
    (c : DirCall) :
    ∃ dp', dirnext v dp f c.mem c.addr ⟨{}, 0, c.st⟩ = .ok (dp', f, 0, []) ∧
      SameEntry dp dp' ∧ OnChain dp' l := by
  obtain ⟨dp1, hnext, hse, ho⟩ := enext_tail {} (some 0) h rfl himg hp
  obtain ⟨fuel, hfuel⟩ := Nat.exists_eq_add_of_le (enextFuel_image h.chain h.nodup (n := 0)
    (Nat.zero_le _))
  rw [show 0 + 1 + fuel = fuel + 1 by omega] at hfuel
  refine ⟨dp1, ?_, hse, ho⟩
  rw [dirnext_open href hr h.isDir, hfuel, dirnextLoop, hoff, hnext]
  dsimp only
  rw [if_neg (by decide)]
  dsimp only
  rw [if_pos rfl]

/-- What call number `k` should answer, given the entry with that number if there is one. -/
def DirCall.Answers (c : DirCall) (out : Int × List UInt8) : Option (Nat × Nat × Dirent) → Prop
  | some e => c.Reports e.2.2 out
  | none => out = (0, [])

private theorem dirnextCalls_image : ∀ (calls : List DirCall) {dp : Dirent} {f : FileEntry}
    {p : Nat} {items : List DirItem}, LiveDir v l dp → 1 ≤ dp.ref → f.readable = true →
    f.off = 32 * p → ImageFrom v l p items → 32 * p ≤ l.length * v.geom.bytsPerClus →
    ∃ dp' f' outs, dirnextCalls v dp f calls = .ok (dp', f', outs) ∧
      outs.length = calls.length ∧
      ∀ (k : Nat) (c : DirCall) (out : Int × List UInt8), calls[k]? = some c →
        outs[k]? = some out → c.Answers out (entriesFrom p items)[k]?
  | [], dp, f, p, items, _, _, _, _, _, _ => ⟨dp, f, [], rfl, rfl, fun k c out h ↦ by cases h⟩
  | c :: calls, dp, f, p, items, h, href, hr, hoff, himg, hp => by
    obtain ⟨dels, rest, rfl, hrest⟩ := split_deleted items
    rw [entriesFrom_deleted]
    cases rest with
    | nil =>
      rw [List.append_nil] at himg
      obtain ⟨dp1, hnext, hse, ho⟩ := dirnext_end h href hr hoff himg hp c
      obtain ⟨dp', f', outs, hcalls, hlen, hall⟩ := dirnextCalls_image calls (h.move hse ho)
        (by rw [hse]; exact href) hr hoff himg hp
      have hnone : entriesFrom p (dels.map .deleted) = [] := by
        have := entriesFrom_deleted [] dels p
        rwa [List.append_nil] at this
      refine ⟨dp', f', (0, []) :: outs, ?_, by simp [hlen], ?_⟩
      · rw [dirnextCalls, hnext]
        dsimp only
        rw [hcalls]
      · intro k d out hd hout
        rw [entriesFrom, List.getElem?_nil]
        cases k with
        | zero =>
          simp only [List.getElem?_cons_zero, Option.some.injEq] at hout
          exact hout.symm
        | succ k =>
          rw [List.getElem?_cons_succ] at hd hout
          have := hall k d out hd hout
          rwa [hnone, List.getElem?_nil] at this
    | cons it tail =>
      cases it with
      | deleted de => exact absurd rfl (hrest de tail)
      | live longs short =>
        obtain ⟨dp1, out1, hnext, hrep, hse, ho⟩ := dirnext_entry h href hr hoff himg hp c
        have hin := himg.inside hp
        have htail := himg.drop_deleted.tail
        have hslen : (DirItem.live longs short).slots.length = longs.length + 1 := by
          simp [DirItem.slots]
        rw [slotsOf_deleted_append, List.length_append, slotsOf_cons, List.length_append,
          hslen] at hin
        rw [hslen, ← Nat.add_assoc] at htail
        obtain ⟨dp', f', outs, hcalls, hlen, hall⟩ := dirnextCalls_image calls
          (f := { f with off := 32 * (p + dels.length + longs.length + 1) }) (h.move hse ho)
          (by rw [hse]; exact href) hr rfl htail (by omega)
        refine ⟨dp', f', out1 :: outs, ?_, by simp [hlen], ?_⟩
        · rw [dirnextCalls, hnext]
          dsimp only
          rw [hcalls]
        · intro k d out hd hout
          rw [entriesFrom]
          cases k with
          | zero =>
            simp only [List.getElem?_cons_zero, Option.some.injEq] at hd hout ⊢
            rw [← hd, ← hout]
            exact hrep
          | succ k =>
            rw [List.getElem?_cons_succ] at hd hout ⊢
            exact hall k d out hd hout

/-- Call number `k` of `dirnext` from offset 0 reports live entry number `k`, in the order on disk,
and every call behind the last one returns 0. -/
theorem dirnext_lists {items : List DirItem} (h : LiveDir v l dp) (href : 1 ≤ dp.ref)
    (hr : f.readable = true) (hoff : f.off = 0) (himg : ImageFrom v l 0 items)
    (calls : List DirCall) :
    ∃ dp' f' outs, dirnextCalls v dp f calls = .ok (dp', f', outs) ∧
      outs.length = calls.length ∧
      ∀ (k : Nat) (c : DirCall) (out : Int × List UInt8), calls[k]? = some c →
        outs[k]? = some out → c.Answers out (entriesFrom 0 items)[k]? :=
  dirnextCalls_image calls h href hr hoff himg (Nat.zero_le _)

end List

/-- A call with a buffer at a user address that is mapped. -/
def smallCall : DirCall := ⟨fun _ ↦ true, 0x1000, fun _ ↦ 0xaa⟩

/-- The three files of the small directory, and the end. -/
theorem dirnext_lists_small : ∃ dp' f' outs,
    dirnextCalls smallDir smallRoot (openAt 0) (List.replicate 5 smallCall) =
      .ok (dp', f', outs) ∧ outs.map Prod.fst = [1, 1, 1, 0, 0] := by
  obtain ⟨dp', f', outs, hcalls, hlen, hall⟩ := dirnext_lists (f := openAt 0) smallDir_live
    (by decide) rfl rfl smallDir_image (List.replicate 5 smallCall)
  refine ⟨dp', f', outs, hcalls, ?_⟩
  match outs, hlen, hall with
  | [a, b, c, d, e], _, hall =>
    have hrun : statRun smallCall.mem smallCall.addr = sizeofStat := by decide
    have h0 := hall 0 smallCall a rfl rfl
    have h1 := hall 1 smallCall b rfl rfl
    have h2 := hall 2 smallCall c rfl rfl
    have h3 := hall 3 smallCall d rfl rfl
    have h4 := hall 4 smallCall e rfl rfl
    simp only [smallItems, entriesFrom, List.getElem?_cons_zero, List.getElem?_cons_succ,
      List.getElem?_nil, DirCall.Answers, DirCall.Reports, hrun, if_true] at h0 h1 h2 h3 h4
    simp [h0.1, h1.1, h2.1, h3, h4]

end Xv6K210.Fs
