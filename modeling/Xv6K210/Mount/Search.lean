import Mathlib.Logic.Function.Iterate
import Xv6K210.Ecache.Cache
import Xv6K210.Fs.Integrity

/-!
# The search of a directory

Source `kernel/fs/fat32.c:852–878`. The loop of `dirlookup` over the slots of a
directory. What it finds depends on the first cluster of the directory and on the name only: not on
where the cursor was left, and not on what the slot of the cache held that it fills.
-/

namespace Xv6K210.Mount

open Xv6K210.Base Xv6K210.Fs

/-- What the loop leaves: the directory with its cursor, the entry that `enext` filled last, whether
it has the name, and the offset. -/
structure SearchOut where
  dp : Fs.Dirent
  ep : Fs.Dirent
  found : Bool
  off : Nat

/-- The loop of `dirlookup`. Its condition stores the outcome of a comparison in `type`, so that the
branch for empty slots is never taken. -/
def searchLoop (v : Volume) (filename : List UInt8) :
    Nat → Fs.Dirent → Fs.Dirent → Nat → Nat → Except Panic SearchOut
  | 0, _, _, _, _ => .error .enextDiverges
  | fuel + 1, dp, ep, off, count =>
    match enext v dp ep off (some count) with
    | .error p => .error p
    | .ok r =>
      if r.ret = -1 then .ok ⟨r.dp, r.ep, false, off⟩
      else if Ecache.sameName filename r.ep.filename then .ok ⟨r.dp, r.ep, true, off⟩
      else
        searchLoop v filename fuel r.dp r.ep ((off + r.count.getD 0 * 32) % 2 ^ 32)
          (r.count.getD 0)

/-- The search of `dirlookup`, from the first slot on. -/
def searchDir (v : Volume) (filename : List UInt8) (dp ep : Fs.Dirent) : Except Panic SearchOut :=
  match relocClus v dp 0 false with
  | .error p => .error p
  | .ok (_, dp, _) => searchLoop v filename (enextFuel v) dp ep 0 0

/-- The entry with a name in the directory that starts at a cluster. -/
def coldSearch (v : Volume) (clus : Nat) (filename : List UInt8) :
    Except Panic (Option Ecache.Found) :=
  match searchDir v filename
    { attr := attrDirectory, firstClus := clus, curClus := clus, valid := 1 } {} with
  | .error p => .error p
  | .ok r =>
    .ok (if r.found then some ⟨r.ep.attr, r.ep.firstClus, r.ep.fileSize, r.off⟩ else none)

/-! ### What the search depends on -/

/-- Two computations fail alike or return related results. -/
inductive Alike {ε α β : Type} (R : α → β → Prop) : Except ε α → Except ε β → Prop where
  | error (p : ε) : Alike R (.error p) (.error p)
  | ok {a : α} {b : β} (h : R a b) : Alike R (.ok a) (.ok b)

/-- The cursors are at the same place. -/
structure SameCursor (e f : Fs.Dirent) : Prop where
  firstClus : f.firstClus = e.firstClus
  curClus : f.curClus = e.curClus
  clusCnt : f.clusCnt = e.clusCnt

variable {v : Volume} {e f : Fs.Dirent}

private theorem relocForward_alike (k : Nat) (h : SameCursor e f) :
    Alike (fun a b ↦ b.1 = a.1 ∧ SameCursor a.2.1 b.2.1 ∧ b.2.2 = a.2.2)
      (relocForward false k v e) (relocForward false k v f) := by
  induction k generalizing e f with
  | zero => exact .ok ⟨rfl, h, rfl⟩
  | succ k ih =>
    rw [relocForward, relocForward, h.curClus]
    by_cases heoc : isEoc (readFat v e.curClus) = true
    · simp only [heoc, if_true, Bool.false_eq_true, if_false]
      exact .ok ⟨rfl, ⟨h.firstClus, h.firstClus, rfl⟩, rfl⟩
    · simp only [heoc]
      exact ih ⟨h.firstClus, rfl, by rw [h.clusCnt]⟩

private theorem relocBack_alike (k : Nat) (h : SameCursor e f) :
    Alike SameCursor (relocBack v k e) (relocBack v k f) := by
  induction k generalizing e f with
  | zero => exact .ok h
  | succ k ih =>
    rw [relocBack, relocBack, h.curClus]
    by_cases heoc : fat32Eoc ≤ readFat v e.curClus
    · simp only [heoc, if_true]
      exact .error _
    · simp only [heoc, if_false]
      exact ih ⟨h.firstClus, rfl, by rw [h.clusCnt]⟩

/-- `reloc_clus` moves equal cursors to equal places. -/
theorem relocClus_alike (off : Nat) (h : SameCursor e f) :
    Alike (fun a b ↦ SameCursor a.2.1 b.2.1 ∧ b.2.2 = a.2.2) (relocClus v e off false)
      (relocClus v f off false) := by
  unfold relocClus
  dsimp only
  rw [h.clusCnt]
  have hforward := relocForward_alike (v := v) (off / v.geom.bytsPerClus - e.clusCnt) h
  generalize relocForward false (off / v.geom.bytsPerClus - e.clusCnt) v e = x at hforward ⊢
  generalize relocForward false (off / v.geom.bytsPerClus - e.clusCnt) v f = y at hforward ⊢
  cases hforward with
  | error p => exact .error p
  | @ok a b hab =>
    obtain ⟨v1, e1, r⟩ := a
    obtain ⟨v2, f1, r2⟩ := b
    obtain ⟨hv, hcur, hr⟩ := hab
    dsimp only at hv hcur hr
    subst hv hr
    cases r2 with
    | false => exact .ok ⟨hcur, rfl⟩
    | true =>
      dsimp only
      rw [hcur.clusCnt]
      by_cases hback : off / v.geom.bytsPerClus < e1.clusCnt
      · rw [if_pos hback, if_pos hback]
        have hb := relocBack_alike (v := v2) (off / v.geom.bytsPerClus)
          (e := { e1 with curClus := e1.firstClus, clusCnt := 0 })
          (f := { f1 with curClus := f1.firstClus, clusCnt := 0 })
          ⟨hcur.firstClus, hcur.firstClus, rfl⟩
        generalize relocBack v2 (off / v.geom.bytsPerClus)
          { e1 with curClus := e1.firstClus, clusCnt := 0 } = x at hb ⊢
        generalize relocBack v2 (off / v.geom.bytsPerClus)
          { f1 with curClus := f1.firstClus, clusCnt := 0 } = y at hb ⊢
        cases hb with
        | error p => exact .error p
        | ok hb => exact .ok ⟨hb, rfl⟩
      · rw [if_neg hback, if_neg hback]
        exact .ok ⟨hcur, rfl⟩

/-- One slot, for equal cursors. -/
theorem enextSlot_alike (off : Nat) (h : SameCursor e f) :
    Alike (fun a b ↦ SameCursor a.1 b.1 ∧ b.2 = a.2) (enextSlot v e off) (enextSlot v f off) := by
  unfold enextSlot
  have hreloc := relocClus_alike (v := v) off h
  have hvol : ∀ {d : Fs.Dirent} {a : Volume × Fs.Dirent × Int},
      relocClus v d off false = .ok a → a.1 = v := by
    rintro d ⟨v', d', r⟩ hok
    exact (relocClus_seek hok).1
  have hx := fun a ↦ hvol (d := e) (a := a)
  have hy := fun a ↦ hvol (d := f) (a := a)
  generalize relocClus v e off false = x at hreloc hx ⊢
  generalize relocClus v f off false = y at hreloc hy ⊢
  cases hreloc with
  | error p => exact .error p
  | @ok a b hab =>
    obtain ⟨v1, e1, r⟩ := a
    obtain ⟨v2, f1, r2⟩ := b
    obtain ⟨hcur, hr⟩ := hab
    dsimp only at hcur hr ⊢
    subst hr
    rw [hcur.curClus]
    by_cases hend : r2 = -1
    · rw [if_pos hend, if_pos hend]
      exact .ok ⟨hcur, rfl⟩
    · rw [if_neg hend, if_neg hend]
      cases readClus v e1.curClus r2 32 with
      | error p => exact .error p
      | ok de => exact .ok ⟨hcur, rfl⟩

/-! ### The cursor -/

/-- A cursor that has counted no cluster stands at the first one. -/
def AtStart (e : Fs.Dirent) : Prop := e.clusCnt = 0 → e.curClus = e.firstClus

/-- The cursor stands on the chain that starts at a cluster. -/
structure OnTrack (v : Volume) (clus : Nat) (e : Fs.Dirent) : Prop where
  first : e.firstClus = clus
  here : e.curClus = (readFat v)^[e.clusCnt] clus

/-- What holds of an entry wherever its cursor moves. -/
structure Moves (v : Volume) (P : Fs.Dirent → Prop) : Prop where
  next : ∀ e, P e → P { e with curClus := readFat v e.curClus, clusCnt := e.clusCnt + 1 }
  back : ∀ e, P e → P { e with curClus := e.firstClus, clusCnt := 0 }

private theorem atStart_moves : Moves v AtStart where
  next _ _ hno := absurd hno (Nat.succ_ne_zero _)
  back _ _ _ := rfl

private theorem onTrack_moves (clus : Nat) : Moves v (OnTrack v clus) where
  next e he := by
    refine ⟨he.first, ?_⟩
    dsimp only
    rw [he.here, Function.iterate_succ_apply']
  back _ he := ⟨he.first, he.first⟩

/-- At the start of the search the cursor goes back to the first cluster. -/
theorem relocClus_start (hcur : AtStart e) :
    relocClus v e 0 false =
      .ok (v, { e with curClus := e.firstClus, clusCnt := 0 },
        ((0 % v.geom.bytsPerClus : Nat) : Int)) := by
  unfold relocClus
  dsimp only
  rw [Nat.zero_div, Nat.zero_sub, relocForward]
  dsimp only
  by_cases hpos : 0 < e.clusCnt
  · rw [if_pos hpos, relocBack]
  · rw [if_neg hpos]
    have hzero : e.clusCnt = 0 := by omega
    have hfirst := hcur hzero
    cases e
    dsimp only at hzero hfirst
    rw [hzero, hfirst]

section

variable {P : Fs.Dirent → Prop}

private theorem relocForward_moves (hmoves : Moves v P) (k : Nat) {r : Volume × Fs.Dirent × Bool}
    (he : P e)
    (h : relocForward false k v e = .ok r) : r.1 = v ∧ P r.2.1 := by
  induction k generalizing e with
  | zero =>
    cases h
    exact ⟨rfl, he⟩
  | succ k ih =>
    rw [relocForward] at h
    by_cases heoc : isEoc (readFat v e.curClus) = true
    · rw [if_pos heoc, if_neg Bool.false_ne_true] at h
      cases h
      exact ⟨rfl, hmoves.back e he⟩
    · rw [if_neg heoc] at h
      exact ih (hmoves.next e he) h

private theorem relocBack_moves (hmoves : Moves v P) (k : Nat) {r : Fs.Dirent} (he : P e)
    (h : relocBack v k e = .ok r) : P r := by
  induction k generalizing e with
  | zero =>
    cases h
    exact he
  | succ k ih =>
    rw [relocBack] at h
    by_cases heoc : fat32Eoc ≤ readFat v e.curClus
    · rw [if_pos heoc] at h
      cases h
    · rw [if_neg heoc] at h
      exact ih (hmoves.next e he) h

private theorem relocClus_moves (hmoves : Moves v P) {off : Nat} {r : Volume × Fs.Dirent × Int}
    (he : P e)
    (h : relocClus v e off false = .ok r) : P r.2.1 := by
  unfold relocClus at h
  dsimp only at h
  have hforward := fun r ↦ relocForward_moves hmoves (off / v.geom.bytsPerClus - e.clusCnt)
    (r := r) he
  generalize relocForward false (off / v.geom.bytsPerClus - e.clusCnt) v e = x at h hforward
  cases x with
  | error p => cases h
  | ok a =>
    obtain ⟨v1, e1, b⟩ := a
    obtain ⟨hsame, hstart⟩ := hforward _ rfl
    dsimp only at hsame
    subst hsame
    cases b with
    | false =>
      cases h
      exact hstart
    | true =>
      dsimp only at h hstart
      by_cases hback : off / v1.geom.bytsPerClus < e1.clusCnt
      · rw [if_pos hback] at h
        have hb := fun r ↦ relocBack_moves hmoves (off / v1.geom.bytsPerClus)
          (e := { e1 with curClus := e1.firstClus, clusCnt := 0 }) (r := r)
          (hmoves.back e1 hstart)
        generalize relocBack v1 (off / v1.geom.bytsPerClus)
          { e1 with curClus := e1.firstClus, clusCnt := 0 } = y at h hb
        cases y with
        | error p => cases h
        | ok d =>
          cases h
          exact hb _ rfl
      · rw [if_neg hback] at h
        cases h
        exact hstart

private theorem enextSlot_moves (hmoves : Moves v P) {off : Nat} {r : Fs.Dirent × List UInt8}
    (he : P e)
    (h : enextSlot v e off = .ok r) : P r.1 := by
  unfold enextSlot at h
  have hreloc : ∀ r, relocClus v e off false = .ok r → P r.2.1 :=
    fun _ ↦ relocClus_moves hmoves he
  generalize relocClus v e off false = x at h hreloc
  cases x with
  | error p => cases h
  | ok a =>
    obtain ⟨v1, e1, off2⟩ := a
    have hstart := hreloc _ rfl
    dsimp only at h hstart
    split at h
    · cases h
      exact hstart
    · split at h
      · cases h
      · cases h
        exact hstart

private theorem enextLoop_moves (hmoves : Moves v P) {x : Fs.Dirent} (fuel : Nat) {buf : ByteMem}
    {off cnt : Nat}
    {live : Bool} {count : Option Nat} {r : EnextOut} (he : P e)
    (h : enextLoop v x fuel e buf off cnt live count = .ok r) : P r.dp := by
  induction fuel generalizing e buf off cnt live count with
  | zero => cases h
  | succ fuel ih =>
    obtain ⟨e1, de, hslot, ⟨_, _, _, _, _, hloop⟩ | ⟨rfl, _⟩⟩ := enextLoop_cases h
    · exact ih (enextSlot_moves hmoves he hslot) hloop
    · exact enextSlot_moves hmoves he hslot

private theorem enext_moves (hmoves : Moves v P) {x : Fs.Dirent} {off : Nat} {count : Option Nat}
    {r : EnextOut}
    (he : P e) (h : enext v e x off count = .ok r) : P r.dp := by
  unfold enext at h
  split at h
  · cases h
  · split at h
    · cases h
    · split at h
      · cases h
      · split at h
        · cases h
          exact he
        · exact enextLoop_moves hmoves _ he h

end

/-! ### The name buffer -/

/-- The buffers are the same but for the byte of the attribute. -/
def SameName (buf buf' : ByteMem) : Prop := ∀ x, x ≠ 256 → buf' x = buf x

/-- The same name after the same store. -/
theorem SameName.store {buf buf' : ByteMem} (h : SameName buf buf') (a : Nat) (bs : List UInt8) :
    SameName (store buf a bs) (store buf' a bs) := by
  intro x hx
  unfold Base.store
  rw [h x hx]

/-- The same name after the same fill. -/
theorem SameName.fill {buf buf' : ByteMem} (h : SameName buf buf') (a n : Nat) (b : UInt8) :
    SameName (fill buf a n b) (fill buf' a n b) := by
  intro x hx
  unfold Base.fill
  rw [h x hx]

/-- The same name after the same copy. -/
theorem SameName.snstr {buf buf' : ByteMem} (h : SameName buf buf') (dst : Nat)
    (src : List UInt8) : SameName (snstr buf dst src) (snstr buf' dst src) := by
  induction buf, dst, src using snstr.induct generalizing buf' with
  | case1 buf dst lo hi src hzero =>
    rw [Fs.snstr, if_pos hzero, Fs.snstr, if_pos hzero]
    exact h.fill dst (src.length / 2) 0
  | case2 buf dst lo hi src hzero ih =>
    rw [Fs.snstr, if_neg hzero, Fs.snstr, if_neg hzero]
    exact ih (h.store dst [lo])
  | case3 buf dst src hshort =>
    rw [Fs.snstr, Fs.snstr]
    · exact h
    · exact hshort
    · exact hshort

/-- The same name after one long-name slot. -/
theorem SameName.readLongName {buf buf' : ByteMem} (h : SameName buf buf') (dst : Nat)
    (de : List UInt8) : SameName (readLongName buf dst de) (readLongName buf' dst de) := by
  unfold Fs.readLongName
  exact ((h.snstr _ _).snstr _ _).snstr _ _

/-- The same name after a short name. -/
theorem SameName.readShortName {buf buf' : ByteMem} (h : SameName buf buf') (de : List UInt8) :
    SameName (readShortName buf de) (readShortName buf' de) := by
  unfold Fs.readShortName
  exact (h.fill _ _ _).store _ _

/-- Buffers of the same name give the same name. -/
theorem SameName.nameOf {buf buf' : ByteMem} (h : SameName buf buf') :
    nameOf buf' = nameOf buf := by
  unfold Fs.nameOf
  have hmax : fat32MaxFilename = 255 := rfl
  have hload : load buf' 0 (fat32MaxFilename + 1) = load buf 0 (fat32MaxFilename + 1) := by
    apply load_congr
    intro i hi
    apply h
    omega
  rw [hload]

/-! ### The search -/

/-- What `enext` yields: a whole entry where it found one. -/
structure SameNext (a b : EnextOut) : Prop where
  dp : SameCursor a.dp b.dp
  count : b.count = a.count
  ret : b.ret = a.ret
  kind : a.ret = -1 ∨ a.ret = 0 ∨ a.ret = 1
  name : b.ep.filename = a.ep.filename
  valid : b.ep.valid = 0 ∧ a.ep.valid = 0
  entry : a.ret = 1 → b.ep.attr = a.ep.attr ∧ b.ep.firstClus = a.ep.firstClus ∧
    b.ep.fileSize = a.ep.fileSize

private theorem enextLoop_alike {x y : Fs.Dirent} (hx : x.valid = 0) (hy : y.valid = 0) (fuel : Nat)
    {buf buf' : ByteMem} (off cnt : Nat) (live : Bool) (count : Option Nat) (h : SameCursor e f)
    (hbuf : SameName buf buf') :
    Alike SameNext (enextLoop v x fuel e buf off cnt live count)
      (enextLoop v y fuel f buf' off cnt live count) := by
  induction fuel generalizing e f buf buf' off cnt live count with
  | zero => exact .error _
  | succ fuel ih =>
    rw [enextLoop, enextLoop]
    have hslot := enextSlot_alike (v := v) off h
    generalize enextSlot v e off = p at hslot ⊢
    generalize enextSlot v f off = q at hslot ⊢
    cases hslot with
    | error p => exact .error p
    | @ok a b hab =>
      obtain ⟨e1, de⟩ := a
      obtain ⟨f1, de2⟩ := b
      obtain ⟨hcur, hde⟩ := hab
      dsimp only at hcur hde ⊢
      subst hde
      rw [hbuf.nameOf]
      by_cases hend : de2.length ≠ 32 ∨ de2.getD 0 0 = endOfEntry
      · rw [if_pos hend, if_pos hend]
        exact .ok ⟨hcur, rfl, rfl, .inl rfl, rfl, ⟨hy, hx⟩, fun hno ↦ by cases hno⟩
      · rw [if_neg hend, if_neg hend]
        by_cases hdel : de2.getD 0 0 = emptyEntry
        · rw [if_pos hdel, if_pos hdel]
          exact ih _ _ _ _ hcur hbuf
        · rw [if_neg hdel, if_neg hdel]
          by_cases hcnt : cnt ≠ 0
          · rw [if_pos hcnt, if_pos hcnt]
            cases live with
            | true =>
              exact .ok ⟨hcur, rfl, rfl, .inr (.inl rfl), rfl, ⟨hy, hx⟩, fun hno ↦ by cases hno⟩
            | false => exact .error _
          · rw [if_neg hcnt, if_neg hcnt]
            by_cases hlong : slotAttr de2 = attrLongName
            · rw [if_pos hlong, if_pos hlong]
              split
              · exact .error _
              · split
                · exact .error _
                · exact ih _ _ _ _ hcur (hbuf.readLongName _ _)
            · rw [if_neg hlong, if_neg hlong]
              refine .ok ⟨hcur, rfl, rfl, .inr (.inr rfl), ?_, ⟨hy, hx⟩, fun _ ↦ ⟨rfl, rfl, rfl⟩⟩
              cases live with
              | true => exact (hbuf.readShortName de2).nameOf
              | false => exact hbuf.nameOf

/-- The directories are live and their cursors are at the same place. -/
structure SameDir (e f : Fs.Dirent) : Prop where
  cursor : SameCursor e f
  dirs : e.attr &&& attrDirectory ≠ 0 ∧ f.attr &&& attrDirectory ≠ 0
  valid : e.valid = 1 ∧ f.valid = 1

/-- Moving both cursors alike. -/
theorem SameDir.move {e' f' : Fs.Dirent} (h : SameDir e f) (hcur : SameCursor e' f')
    (he : SameEntry e e') (hf : SameEntry f f') : SameDir e' f' := by
  refine ⟨hcur, ⟨?_, ?_⟩, ?_, ?_⟩
  · rw [he]
    exact h.dirs.1
  · rw [hf]
    exact h.dirs.2
  · rw [he]
    exact h.valid.1
  · rw [hf]
    exact h.valid.2

private theorem enext_alike {x y : Fs.Dirent} (hx : x.valid = 0) (hy : y.valid = 0) (off : Nat)
    (count : Option Nat) (h : SameDir e f) :
    Alike SameNext (enext v e x off count) (enext v f y off count) := by
  unfold enext
  rw [if_neg h.dirs.1, if_neg h.dirs.2, if_neg (not_not.mpr hx), if_neg (not_not.mpr hy)]
  by_cases halign : off % 32 ≠ 0
  · rw [if_pos halign, if_pos halign]
    exact .error _
  · rw [if_neg halign, if_neg halign, if_neg (not_not.mpr h.valid.1),
      if_neg (not_not.mpr h.valid.2)]
    apply enextLoop_alike hx hy _ _ _ _ _ h.cursor
    intro x hne
    dsimp only
    rw [if_neg hne, if_neg hne]

/-- In the directory that starts at a cluster no deleted slot stands between a long-name slot and
the rest of its entry: where `enext` stops for empty slots it has read no name. -/
def TidyDir (v : Volume) (clus : Nat) : Prop := ∀ dp ep off count r, OnTrack v clus dp →
  enext v dp ep off count = .ok r → r.ret = 0 → r.ep.filename = []

/-- What the search yields: a whole entry where it found one. -/
structure SameSearch (a b : SearchOut) : Prop where
  found : b.found = a.found
  off : b.off = a.off
  name : b.ep.filename = a.ep.filename
  valid : b.ep.valid = 0 ∧ a.ep.valid = 0
  entry : a.found = true → b.ep.attr = a.ep.attr ∧ b.ep.firstClus = a.ep.firstClus ∧
    b.ep.fileSize = a.ep.fileSize

/-- A name that is not empty is not that of an entry without one. -/
theorem sameName_nil {name : List UInt8} (hname : name ≠ []) :
    Ecache.sameName name [] = false := by
  cases name with
  | nil => exact absurd rfl hname
  | cons c name => simp [Ecache.sameName, fat32MaxFilename]

private theorem searchLoop_alike {clus : Nat} (htidy : TidyDir v clus) {name name' : List UInt8}
    (hname : name ≠ []) (hsame : ∀ x, Ecache.sameName name' x = Ecache.sameName name x) (fuel : Nat)
    {x y : Fs.Dirent} (hx : x.valid = 0) (hy : y.valid = 0) (off count : Nat) (h : SameDir e f)
    (htrack : OnTrack v clus f) :
    Alike SameSearch (searchLoop v name fuel e x off count)
      (searchLoop v name' fuel f y off count) := by
  induction fuel generalizing e f x y off count with
  | zero => exact .error _
  | succ fuel ih =>
    rw [searchLoop, searchLoop]
    have hnext := enext_alike (v := v) hx hy off (some count) h
    have hcold := fun r ↦ htidy f y off (some count) r htrack
    have hnextTrack : ∀ r, enext v f y off (some count) = .ok r → OnTrack v clus r.dp :=
      fun _ ↦ enext_moves (onTrack_moves clus) htrack
    have he : ∀ r, enext v e x off (some count) = .ok r → SameEntry e r.dp :=
      fun r hr ↦ (enext_sought hr).entry
    have hf : ∀ r, enext v f y off (some count) = .ok r → SameEntry f r.dp :=
      fun r hr ↦ (enext_sought hr).entry
    generalize enext v e x off (some count) = p at hnext he ⊢
    generalize enext v f y off (some count) = q at hnext hcold hnextTrack hf ⊢
    cases hnext with
    | error p => exact .error p
    | @ok a b hab =>
      dsimp only
      rw [hab.ret, hsame, hab.name, hab.count]
      by_cases hend : a.ret = -1
      · rw [if_pos hend, if_pos hend]
        exact .ok ⟨rfl, rfl, hab.name, hab.valid, fun hno ↦ by cases hno⟩
      · rw [if_neg hend, if_neg hend]
        by_cases hfound : Ecache.sameName name a.ep.filename = true
        · rw [if_pos hfound, if_pos hfound]
          refine .ok ⟨rfl, rfl, hab.name, hab.valid, fun _ ↦ ?_⟩
          apply hab.entry
          rcases hab.kind with hret | hret | hret
          · exact absurd hret hend
          · rw [← hab.name, hcold b rfl (hab.ret.trans hret), sameName_nil hname] at hfound
            cases hfound
          · exact hret
        · rw [if_neg hfound, if_neg hfound]
          exact ih hab.valid.2 hab.valid.1 _ _ (h.move hab.dp (he a rfl) (hf b rfl))
            (hnextTrack b rfl)

/-- Where `enext` finds an entry, the cursor of the entry is at its start. -/
theorem enextLoop_filled {x : Fs.Dirent} (fuel : Nat) {buf : ByteMem} {off cnt : Nat}
    {live : Bool} {count : Option Nat} {r : EnextOut}
    (h : enextLoop v x fuel e buf off cnt live count = .ok r) :
    r.ret = -1 ∨ r.ret = 0 ∨ AtStart r.ep := by
  induction fuel generalizing e buf off cnt live count with
  | zero => cases h
  | succ fuel ih =>
    obtain ⟨e1, de, _, ⟨_, _, _, _, _, hloop⟩ | ⟨_, hret⟩⟩ := enextLoop_cases h
    · exact ih hloop
    · rcases hret with hret | ⟨hret, _⟩ | ⟨_, _, hcur⟩
      · exact .inl hret
      · exact .inr (.inl hret)
      · exact .inr (.inr fun _ ↦ hcur)

private theorem enext_filled {x : Fs.Dirent} {off : Nat} {count : Option Nat} {r : EnextOut}
    (h : enext v e x off count = .ok r) : r.ret = -1 ∨ r.ret = 0 ∨ AtStart r.ep := by
  unfold enext at h
  split at h
  · cases h
  · split at h
    · cases h
    · split at h
      · cases h
      · split at h
        · cases h
          exact .inl rfl
        · exact enextLoop_filled _ h

/-- The cursor of the entry that is found is at its start. -/
theorem searchLoop_filled {clus : Nat} (htidy : TidyDir v clus) {name : List UInt8}
    (hname : name ≠ []) (fuel : Nat) {x : Fs.Dirent} {off count : Nat} {r : SearchOut}
    (htrack : OnTrack v clus e) (h : searchLoop v name fuel e x off count = .ok r)
      (hfound : r.found = true) :
    AtStart r.ep := by
  induction fuel generalizing e x off count with
  | zero => cases h
  | succ fuel ih =>
    rw [searchLoop] at h
    have hfilled : ∀ r, enext v e x off (some count) = .ok r →
        r.ret = -1 ∨ r.ret = 0 ∨ AtStart r.ep := fun _ ↦ enext_filled
    have hempty := fun r ↦ htidy e x off (some count) r htrack
    have hnext : ∀ r, enext v e x off (some count) = .ok r → OnTrack v clus r.dp :=
      fun _ ↦ enext_moves (onTrack_moves clus) htrack
    generalize enext v e x off (some count) = p at h hfilled hempty hnext
    cases p with
    | error p => cases h
    | ok a =>
      dsimp only at h
      split at h
      · cases h
        cases hfound
      · rename_i hend
        split at h
        · rename_i hsame
          cases h
          rcases hfilled a rfl with hret | hret | hstart
          · exact absurd hret hend
          · rw [hempty a rfl hret, sameName_nil hname] at hsame
            cases hsame
          · exact hstart
        · exact ih (hnext a rfl) h

/-- A search that finds ends at the start of a slot. -/
theorem searchDir_filled (htidy : TidyDir v e.firstClus) {name : List UInt8} (hname : name ≠ [])
    (hcur : AtStart e) {x : Fs.Dirent} {r : SearchOut} (h : searchDir v name e x = .ok r)
    (hfound : r.found = true) : AtStart r.ep := by
  unfold searchDir at h
  rw [relocClus_start hcur] at h
  have htrack : OnTrack v e.firstClus { e with curClus := e.firstClus, clusCnt := 0 } := ⟨rfl, rfl⟩
  exact searchLoop_filled htidy hname _ htrack h hfound

private theorem searchLoop_dir (fuel : Nat) {name : List UInt8} {x : Fs.Dirent} {off count : Nat}
    {r : SearchOut} (hcur : AtStart e) (h : searchLoop v name fuel e x off count = .ok r) :
    AtStart r.dp ∧ SameEntry e r.dp := by
  induction fuel generalizing e x off count with
  | zero => cases h
  | succ fuel ih =>
    rw [searchLoop] at h
    have hnext : ∀ r, enext v e x off (some count) = .ok r → AtStart r.dp :=
      fun _ ↦ enext_moves atStart_moves hcur
    have hsame : ∀ r, enext v e x off (some count) = .ok r → Sought v e v r.dp :=
      fun _ ↦ enext_sought
    generalize enext v e x off (some count) = p at h hnext hsame
    cases p with
    | error p => cases h
    | ok a =>
      have hstart := hnext a rfl
      have hentry := (hsame a rfl).entry
      dsimp only at h
      split at h
      · cases h
        exact ⟨hstart, hentry⟩
      · split at h
        · cases h
          exact ⟨hstart, hentry⟩
        · obtain ⟨hrest, hsame'⟩ := ih hstart h
          exact ⟨hrest, hentry.trans hsame'⟩

/-- The search moves the cursor of the directory only. -/
theorem searchDir_dir {name : List UInt8} {x : Fs.Dirent} {r : SearchOut} (hcur : AtStart e)
    (h : searchDir v name e x = .ok r) : AtStart r.dp ∧ SameEntry e r.dp := by
  unfold searchDir at h
  rw [relocClus_start hcur] at h
  obtain ⟨hstart, hsame⟩ := searchLoop_dir _ (fun _ ↦ rfl) h
  exact ⟨hstart, SameEntry.seek _ _ hsame⟩

private theorem searchLoop_name {name : List UInt8} (fuel : Nat) {x : Fs.Dirent} {off count : Nat}
    {r : SearchOut} (h : searchLoop v name fuel e x off count = .ok r) (hfound : r.found = true) :
    Ecache.sameName name r.ep.filename = true := by
  induction fuel generalizing e x off count with
  | zero => cases h
  | succ fuel ih =>
    rw [searchLoop] at h
    split at h
    · cases h
    · split at h
      · cases h
        cases hfound
      · split at h
        · rename_i hsame
          cases h
          exact hsame
        · exact ih h

/-- The entry that is found has the name. -/
theorem searchDir_name {name : List UInt8} {x : Fs.Dirent} {r : SearchOut}
    (h : searchDir v name e x = .ok r) (hfound : r.found = true) :
    Ecache.sameName name r.ep.filename = true := by
  unfold searchDir at h
  split at h
  · cases h
  · exact searchLoop_name _ h hfound

/-- The search of a live directory finds what the search from its first cluster finds, for every
name that compares equal. -/
theorem searchDir_cold (htidy : TidyDir v e.firstClus) {name name' : List UInt8} (hname : name ≠ [])
    (hsame : ∀ x, Ecache.sameName name' x = Ecache.sameName name x) {x : Fs.Dirent}
    (hx : x.valid = 0) (hdir : e.attr &&& attrDirectory ≠ 0) (hvalid : e.valid = 1)
    (hcur : AtStart e) {r : SearchOut} (h : searchDir v name e x = .ok r) :
    r.ep.valid = 0 ∧ coldSearch v e.firstClus name' =
      .ok (if r.found then some ⟨r.ep.attr, r.ep.firstClus, r.ep.fileSize, r.off⟩ else none) := by
  unfold searchDir at h
  rw [relocClus_start hcur] at h
  dsimp only at h
  set cold : Fs.Dirent :=
    { attr := attrDirectory, firstClus := e.firstClus, curClus := e.firstClus, valid := 1 }
  have hcold : searchDir v name' cold {} = searchLoop v name' (enextFuel v) cold {} 0 0 := by
    unfold searchDir
    rw [relocClus_start fun _ ↦ rfl]
  have hdirs : SameDir { e with curClus := e.firstClus, clusCnt := 0 } cold :=
    ⟨⟨rfl, rfl, rfl⟩, ⟨hdir, (by decide : attrDirectory &&& attrDirectory ≠ 0)⟩, hvalid, rfl⟩
  have hloop := searchLoop_alike htidy hname hsame (enextFuel v) hx (y := {}) rfl 0 0 hdirs
    ⟨rfl, rfl⟩
  rw [h] at hloop
  unfold coldSearch
  rw [hcold]
  generalize searchLoop v name' (enextFuel v) cold {} 0 0 = q at hloop
  cases hloop with
  | @ok _ b hab =>
    refine ⟨hab.valid.2, ?_⟩
    dsimp only
    rw [hab.found, hab.off]
    cases hf : r.found with
    | false => rfl
    | true =>
      obtain ⟨hattr, hclus, hsize⟩ := hab.entry hf
      rw [hattr, hclus, hsize]

end Xv6K210.Mount
