import Mathlib.Algebra.BigOperators.Fin
import Mathlib.Data.Fintype.BigOperators
import Xv6K210.Files.Counts

/-!
# The calls keep the counts

Every call keeps the counts of the files and of the entries, whichever way it
returns.
-/

namespace Xv6K210.Files

open Xv6K210.Base Xv6K210.Fs Xv6K210.Ecache Prog Function
open Xv6K210.Vm (nofile oAccmode oCreate oTrunc oOther parseAccessMode)

variable {P F O S : Type} {ok : Prop} {w : World P F O S}

private theorem getCwd_spec (w : World P F O S) (p : P) :
    Ensures (getCwd p) w fun e w' ↦ w = w' ∧ ∃ q, w.proc p = some q ∧ e = q.cwd := by
  unfold getCwd
  rw [ensures_bind, ensures_get]
  split
  next => exact ensures_halt
  next q hq => exact ensures_pure.mpr ⟨rfl, q, hq, rfl⟩

private theorem ensures_self {α : Type} (x : Cached S α) (c : Cache S) :
    Ensures x c fun r c' ↦ x c = .ok (r, c') := ⟨fun _ _ heq ↦ heq⟩

private theorem argfd_spec (w : World P F O S) (p : P) (fd : Fin nofile) :
    Ensures (argfd p fd) w fun r w' ↦ w = w' ∧ w.fdFile (p, fd) = r := by
  unfold argfd
  rw [ensures_bind, ensures_get, ensures_pure]
  exact ⟨rfl, rfl⟩

private theorem proc_of_fdFile {p : P} {fd : Fin nofile} {f : F} (h : w.fdFile (p, fd) = some f) :
    w.proc p ≠ none := by
  intro hp
  rw [World.fdFile, hp] at h
  cases h

/-- A file that is not open is closed: a driver is called for it only when the calls need not be
paired. -/
theorem Openings.closeLog (h : Openings ok w) {f : F} {y : File S}
    (hnot : (w.file f).type ≠ .device) (hy : y.opening = (w.file f).opening)
    (hok : ok → ∀ ops, y.ops = some ops → ops.hasClose = false) :
    Openings ok { w with log := y.closeLog w.log } := by
  unfold File.closeLog
  cases hops : y.ops with
  | none => exact h
  | some ops =>
    dsimp only
    split
    next hclose =>
      rw [hy]
      apply h.stray hnot
      intro hpaired
      exact absurd (hok hpaired ops hops) (by simp [hclose])
    next => exact h

variable [DecidableEq P] [DecidableEq F] [DecidableEq S] [Fintype P] [Fintype F] [Fintype O]
  [Fintype S] {g : F → Int} {d : Ent S → Int}

/-! ### `open` -/

/-- The way back of `sys_open` when the file `f` is not open on a device: what is left of it is in
the fields `x`, and the reference to its entry is the call's again. -/
theorem openFailed_midway {p : P} {fd : Fin nofile} {f : F} {e : Ent S} (howed : ∀ x, 0 ≤ d x)
    (h : Midway ok g (fun x ↦ d x + holds (some e) x) w) (hp : w.proc p ≠ none)
    (hfd : w.fdFile (p, fd) = some f) (htype : (w.file f).type = .none)
    (href : (w.file f).ref = 1) {x : File S} (hx : x.type = .none ∧ x.ref = 0) {n : Nat}
    {log : List DevCall}
    (hopen : Openings ok { w with file := update w.file f x, openings := n, log }) :
    Ensures (do eunlock e; eput e : Cached S Unit) w.cache fun _ c ↦
      Midway ok g d { w.withFd p fd none with
        cache := c, file := update w.file f x, openings := n, log } := by
  have hfree : Midway ok (fun f' ↦ g f' + holds (some f) f') (fun x ↦ d x + holds (some e) x)
      (w.withFd p fd none) := by
    apply h.withFd hp
    intro f'
    rw [hfd, holds_none]
    omega
  have hgone : Midway ok g (fun x ↦ d x + holds (some e) x) { w.withFd p fd none with
      file := update w.file f x, openings := n, log } := by
    apply hfree.setFile
    · change (x.ref : Int) = (w.file f).ref + (g f - (g f + holds (some f) f))
      rw [hx.2, href, holds_self]
      omega
    · intro f' hf
      rw [holds_of_ne (Ne.symm hf), add_zero]
    · intro e'
      change _ = _ + holds (w.file f).ent e' - holds x.ent e'
      simp [File.ent, htype, hx.1]
    · exact h.owed
    · exact fun _ ↦ hx.1
    · exact ⟨hopen.held, hopen.apart, hopen.bound, hopen.numbered, hopen.past, hopen.once,
        hopen.unheld, hopen.paired⟩
  exact release_midway howed hgone

/-- `sys_open` gives up: the file, which is `y` by now, is closed. -/
private theorem openBack_midway {p : P} {fd : Fin nofile} {f : F} {e : Ent S}
    (howed : ∀ x, 0 ≤ d x) (h : Midway ok g (fun x ↦ d x + holds (some e) x) w)
    (hp : w.proc p ≠ none) (hfd : w.fdFile (p, fd) = some f) (htype : (w.file f).type = .none)
    (href : (w.file f).ref = 1) {y : File S} {n : Nat} {log : List DevCall}
    (hy : y.opened = false ∧ y.ref = 1 ∧ y.type = .device)
    (hopen : Openings ok { w with
      file := update w.file f { y with ref := 0, type := .none }
      openings := n
      log := y.closeLog log }) :
    Ensures (do
        setFd p fd none
        fileclose f
        inCache do
          eunlock e
          eput e
        pure none : Sys P F O S (Option (Fin nofile)))
      { w with file := update w.file f y, openings := n, log } fun _ w' ↦ Midway ok g d w' := by
  simp only [ensures_bind, ensures_pure]
  apply (setFd_spec _ p fd none).mono
  rintro _ w1 rfl
  have hself : (World.withFd { w with file := update w.file f y, openings := n, log }
      p fd none).file f = y := by
    change update w.file f y f = y
    rw [update_self]
  have hclose := fileclose_failed
    (w := World.withFd { w with file := update w.file f y, openings := n, log } p fd none)
    (f := f) (by rw [hself, hy.2.1]) (by rw [hself, hy.2.2]) (by rw [hself, hy.1])
  apply hclose.mono
  rintro _ w2 rfl
  apply ensures_inCache
  rw [hself]
  have hback := openFailed_midway howed h hp hfd htype href
    (x := { y with ref := 0, type := .none }) ⟨rfl, rfl⟩ hopen
  apply hback.mono
  intro _ c hc
  unfold World.withFd at hc ⊢
  dsimp only at hc ⊢
  rw [update_idem]
  exact hc

/-- `sys_open` from `f->ep = ep` on. -/
theorem openFile_midway (devices : Nat → Option FileOps) {p : P} {fd : Fin nofile} {f : F}
    {e : Ent S} (x : Dirent S) (readable writable : Bool) (answer : Answer)
    (howed : ∀ x, 0 ≤ d x) (h : Midway ok g (fun x ↦ d x + holds (some e) x) w)
    (hp : w.proc p ≠ none) (hfd : w.fdFile (p, fd) = some f) (htype : (w.file f).type = .none)
    (href : (w.file f).ref = 1) (hnot : (w.file f).opened = false)
    (hclean : ok → OpensCleanly devices (w.file f) x answer) :
    Ensures (openFile devices p fd f e x readable writable answer) w fun _ w' ↦
      Midway ok g d w' := by
  unfold openFile Files.setFile
  rw [ensures_bind, ensures_modify, ensures_ite]
  refine ⟨fun hdevice ↦ ?_, fun _ ↦ ?_⟩
  · rw [ensures_bind, ensures_modify, ensures_bind]
    simp only [update_self, update_idem]
    set y : File S := { w.file f with
      ep := some e, readable, writable, type := .device
      major := toShort x.firstClus, minor := toShort x.fileSize } with hy
    have hself : update w.file f y f = y := update_self _ _ _
    have hnode := fun hpaired ↦ hclean hpaired hdevice
    have hspec := fileopen_spec (w := { w with file := update w.file f y }) devices
      (f := f) answer (by
        change (update w.file f y f).type = .device
        rw [hself])
    dsimp only at hspec
    rw [hself] at hspec
    apply hspec.mono
    rintro r w1 (⟨hnone, rfl, rfl⟩ | ⟨ops, hsome, ⟨data, rfl, rfl⟩ | ⟨hhas, hanswer, rfl, rfl⟩⟩)
    · -- no driver: the slot still has what an earlier opening set
      rw [if_neg (by simp)]
      refine openBack_midway (y := y) howed h hp hfd htype href ⟨hnot, href, rfl⟩ ?_
      have hset : Openings ok { w with
          file := update w.file f { y with ref := 0, type := .none } } := by
        refine Openings.setFile (f := f) h.openings ?_ ?_ ?_
        · rfl
        · intro hdev
          cases hdev
        · intro hdev
          exact absurd (htype.symm.trans hdev) (by simp)
      apply hset.closeLog (f := f)
      · change (update w.file f _ f).type ≠ .device
        rw [update_self]
        simp
      · change y.opening = (update w.file f _ f).opening
        rw [update_self]
      · intro hpaired
        have := hnode hpaired
        rw [hnone] at this
        exact this
    · -- the driver has opened the file
      rw [if_pos rfl, update_idem]
      simp only [ensures_bind, ensures_pure]
      apply ensures_inCache
      apply (eunlock_spec w.cache e).mono
      rintro _ c rfl
      apply h.setFile
      · change ((w.file f).ref : Int) = _
        omega
      · exact fun _ _ ↦ rfl
      · intro e'
        simp [File.ent, htype, href, hy]
      · exact howed
      · intro hzero
        exact absurd (href.symm.trans hzero) (by simp)
      · apply h.openings.attempt
        · rw [htype]
          simp
        · rfl
        · exact fun _ ↦ ⟨rfl, rfl, rfl⟩
        · intro hdev
          exact absurd rfl hdev
    · -- the driver refuses
      rw [if_neg (by simp), update_idem]
      refine openBack_midway howed h hp hfd htype href (y := { y with
        ops := some ops, privateData := none, opening := w.openings + 1 }) ⟨hnot, href, rfl⟩ ?_
      have hattempt : Openings ok { w with
          file := update w.file f { y with
            ops := some ops, privateData := none, opening := w.openings + 1, ref := 0,
            type := .none }
          openings := w.openings + 1
          log := .opened (w.openings + 1) ops none :: w.log } := by
        apply h.openings.attempt
        · rw [htype]
          simp
        · rfl
        · intro hdev
          cases hdev
        · exact fun _ ↦ rfl
      apply hattempt.closeLog (f := f)
      · change (update w.file f _ f).type ≠ .device
        rw [update_self]
        simp
      · change w.openings + 1 = (update w.file f _ f).opening
        rw [update_self]
      · rintro hpaired ops' heq
        have := hnode hpaired
        rw [hsome] at this
        obtain rfl : ops = ops' := Option.some.inj heq
        exact this hhas hanswer
  · simp only [ensures_bind, ensures_modify, ensures_pure, update_self,
      update_idem]
    apply ensures_inCache
    apply (eunlock_spec w.cache e).mono
    rintro _ c rfl
    apply h.setFile
    · change ((w.file f).ref : Int) = _
      omega
    · exact fun _ _ ↦ rfl
    · intro e'
      simp [File.ent, htype, href]
    · exact howed
    · intro hzero
      exact absurd (href.symm.trans hzero) (by simp)
    · refine Openings.setFile (f := f) h.openings ?_ ?_ ?_
      · rfl
      · intro hdev
        cases hdev
      · intro hdev
        exact absurd (htype.symm.trans hdev) (by simp)

/-- `filealloc` and `fdalloc`: the file has one reference, from the descriptor. -/
theorem openSlot_midway (ftable : List F) {p : P} (h : Midway ok g d w) (hp : w.proc p ≠ none) :
    Ensures (openSlot ftable p) w fun r w' ↦
      match r with
      | none => Midway ok g d w' ∧ w'.proc = w.proc
      | some (f, fd) => (ftable.find? fun f ↦ (w.file f).ref = 0) = some f ∧
          w'.file f = { w.file f with ref := 1, opened := false } ∧ w'.cache = w.cache ∧
            (w.file f).type = .none ∧ w'.fdFile (p, fd) = some f ∧ w'.proc p ≠ none ∧
              Midway ok g d w' := by
  unfold openSlot
  apply (filealloc_midway ftable h).bind
  intro r w1 h1
  cases r with
  | none =>
    obtain rfl := h1
    exact ensures_pure.mpr ⟨h, rfl⟩
  | some f =>
    obtain ⟨hfind, hw1, htype, h1⟩ := h1
    have hp1 : w1.proc p ≠ none := by
      rw [hw1]
      exact hp
    dsimp only
    apply (fdalloc_midway f hp1 h1).bind
    intro r w2 h2
    cases r with
    | none =>
      obtain rfl := h2
      simp only [ensures_bind, ensures_pure]
      apply (fileclose_midway f h1).mono
      rintro _ w3 ⟨h3, hproc, -⟩
      exact ⟨h3, by rw [hproc, hw1]⟩
    | some fd =>
      obtain ⟨rfl, -, hfd, h2⟩ := h2
      have hcache : w1.cache = w.cache := by rw [hw1]
      refine ensures_pure.mpr ⟨hfind, ?_, hcache, htype, hfd, withFd_ne_none hp1 fd (some f), ?_⟩
      · change w1.file f = _
        rw [hw1]
        exact update_self _ _ _
      · apply h2.congr
        · intro x
          omega
        · exact fun _ ↦ rfl

section

omit [DecidableEq P]

/-- The directory of a process is in use. -/
theorem Midway.cwd_pos (h : Midway ok g d w) {p : P} {q : Proc F S} (hq : w.proc p = some q) :
    q.cwd = .root ∨ 0 < (w.cache.ent q.cwd).ref := by
  right
  apply h.cache.ref_pos
  have hpos : 0 < refs w.cwdEnt q.cwd := by
    apply refs_pos.mpr
    refine ⟨p, ?_⟩
    rw [World.cwdEnt, hq]
    rfl
  have := h.owed q.cwd
  unfold World.users
  omega

/-- A routine of the cache that returns an entry returns a reference to it. -/
theorem Midway.of_sound (h : Midway ok g d w) {α : Type} {x : Cached S α} (res : α → Option (Ent S))
    (hx : (∀ e, 0 ≤ w.users e + d e) → Ecache.Sound (fun e ↦ w.users e + d e) w.cache →
      Ensures x w.cache fun r c ↦
        Ecache.Sound (fun e ↦ w.users e + d e + holds (res r) e) c ∧ Settled c) :
    Ensures x w.cache fun r c ↦
      Midway ok g (fun e ↦ d e + holds (res r) e) { w with cache := c } := by
  have hnonneg : ∀ e, 0 ≤ w.users e + d e := by
    intro e
    have := w.users_nonneg e
    have := h.owed e
    omega
  apply (hx hnonneg h.cache).mono
  rintro r c ⟨hc, hs⟩
  apply h.of_cache
  · intro e
    have := h.owed e
    have := holds_nonneg (res r) e
    omega
  · apply hc.congr
    intro e
    omega
  · exact hs

/-- The entry that `sys_open` opens comes with a reference. -/
theorem openPath_midway (h : Midway ok g d w) {p : P} {q : Proc F S} (hq : w.proc p = some q)
    (path : List UInt8) (omode : BitVec 32) (off : Nat) :
    Ensures (openPath q.cwd path omode off) w.cache fun r c ↦
      Midway ok g (fun e ↦ d e + holds r e) { w with cache := c } := by
  have hcwd := h.cwd_pos hq
  unfold openPath
  rw [ensures_ite]
  refine ⟨fun _ ↦ ?_, fun _ ↦ ?_⟩
  · exact h.of_sound id fun hd hc ↦ create_sound hc hd h.settled path _ 0 0 off hcwd
  · rw [ensures_bind]
    have hname := h.of_sound (x := ename q.cwd path) id
      fun hd hc ↦ ename_sound hc hd h.settled path hcwd
    apply hname.mono
    intro r c h1
    cases r with
    | none => exact ensures_pure.mpr h1
    | some e =>
      dsimp only
      apply (elock_spec c e).bind
      rintro _ c1 ⟨rfl, -⟩
      rw [ensures_bind, ensures_get, ensures_ite, ensures_pure]
      refine ⟨fun _ ↦ ?_, fun _ ↦ h1⟩
      simp only [ensures_bind, ensures_pure]
      have hback := release_midway (w := { w with cache := c1 }) (x := e) (e := e) h.owed h1
      rw [ensures_bind] at hback
      apply hback.mono
      intro _ c2 h2
      apply h2.mono
      intro _ c3 h3
      apply h3.congr
      · exact fun _ ↦ rfl
      · intro e'
        rw [holds_none, add_zero]

end

/-- The entry that `sys_open` opens, once a file is truncated. -/
def truncated (omode : BitVec 32) (d : Dirent S) : Dirent S :=
  if d.isDir = false ∧ omode &&& oTrunc ≠ 0 then
    { d with fileSize := 0, firstClus := 0, dirty := true }
  else d

omit [Fintype S] in
private theorem openTrunc_spec (c : Cache S) (e : Ent S) (omode : BitVec 32) :
    Ensures (do
        let c ← get
        Prog.doIf ((c.ent e).isDir = false ∧ omode &&& oTrunc ≠ 0) (etrunc e) : Cached S Unit) c
      fun _ c' ↦ Same c c' ∧ c'.ent e = truncated omode (c.ent e) := by
  rw [ensures_bind, ensures_get, ensures_doIf]
  unfold truncated
  refine ⟨fun htrunc ↦ ?_, fun hkeep ↦ ⟨.refl c, by rw [if_neg hkeep]⟩⟩
  have hsame : Ensures (etrunc e) c fun _ c' ↦ Same c c' :=
    setEnt_same c e (fun _ ↦ ⟨rfl, rfl, rfl, rfl, rfl, rfl⟩) fun _ ↦ rfl
  apply hsame.and
  unfold Ecache.etrunc setEnt
  rw [ensures_modify, if_pos htrunc]
  exact update_self _ _ _

omit [DecidableEq P] [DecidableEq F] [DecidableEq S] [Fintype P] [Fintype F] [Fintype O]
  [Fintype S] in
instance (devices : Nat → Option FileOps) (x : File S) (d : Dirent S) (answer : Answer) :
    Decidable (OpensCleanly devices x d answer) := by
  unfold OpensCleanly
  split <;> infer_instance

/-- A call does no harm: if it opens an entry `e` with the slot `f`, this is done cleanly. -/
def Harmless (devices : Nat → Option FileOps) (ftable : List F) (w : World P F O S) :
    Call P O → Prop
  | .open p path omode off answer =>
    match w.proc p with
    | none => True
    | some q =>
      match openPath q.cwd path omode off w.cache, ftable.find? fun f ↦ (w.file f).ref = 0 with
      | .ok (some e, c), some f =>
        OpensCleanly devices (w.file f) (truncated omode (c.ent e)) answer
      | _, _ => True
  | _ => True

instance (devices : Nat → Option FileOps) (ftable : List F) (w : World P F O S)
    (call : Call P O) : Decidable (Harmless devices ftable w call) := by
  unfold Harmless
  split
  · split
    · infer_instance
    · split <;> infer_instance
  · infer_instance

/-- `sys_open`. -/
theorem sysOpen_midway (devices : Nat → Option FileOps) (ftable : List F) {p : P}
    (path : List UInt8) (omode : BitVec 32) (off : Nat) (answer : Answer) (h : Midway ok g d w)
    (hclean : ok → Harmless (O := O) devices ftable w (.open p path omode off answer)) :
    Ensures (sysOpen devices ftable p path omode off answer) w fun _ w' ↦ Midway ok g d w' := by
  unfold sysOpen
  rw [ensures_ite, ensures_pure]
  refine ⟨fun _ ↦ h, fun _ ↦ ?_⟩
  split
  next => exact ensures_pure.mpr h
  next readable writable _ =>
    apply (getCwd_spec w p).bind
    rintro _ _ ⟨rfl, q, hq, rfl⟩
    rw [ensures_bind]
    apply ensures_inCache
    apply ((openPath_midway h hq path omode off).and (ensures_self _ _)).mono
    rintro r c ⟨h1, heq⟩
    cases r with
    | none =>
      refine ensures_pure.mpr (h1.congr (fun _ ↦ rfl) fun e ↦ ?_)
      rw [holds_none, add_zero]
    | some e =>
      have hp : w.proc p ≠ none := by
        rw [hq]
        simp
      dsimp only
      apply (openSlot_midway ftable h1 hp).bind
      intro r w2 h2
      cases r with
      | none =>
        simp only [ensures_bind, ensures_pure]
        apply ensures_inCache
        exact release_midway h.owed h2.1
      | some r =>
        obtain ⟨f, fd⟩ := r
        obtain ⟨hfind, hfile, hcache, htype, hfd, hp2, h2⟩ := h2
        dsimp only at hfind hfile hcache htype ⊢
        rw [ensures_bind]
        apply ensures_inCache
        apply (openTrunc_spec w2.cache e omode).mono
        rintro _ c2 ⟨hsame, hent⟩
        rw [ensures_bind, ensures_get]
        apply openFile_midway devices _ readable writable answer h.owed
        · exact h2.of_cache h2.owed (h2.cache.same hsame) (h2.settled.same hsame)
        · exact hp2
        · exact hfd
        · change (w2.file f).type = .none
          rw [hfile]
          exact htype
        · change (w2.file f).ref = 1
          rw [hfile]
        · change (w2.file f).opened = false
          rw [hfile]
        · intro hpaired
          change OpensCleanly devices (w2.file f) (c2.ent e) answer
          have hharm := hclean hpaired
          unfold Harmless at hharm
          dsimp only at hharm
          rw [hq] at hharm
          dsimp only at hharm
          rw [heq, hfind] at hharm
          rw [hent, hfile, hcache]
          exact hharm

/-! ### Entries -/

section

omit [DecidableEq P]

/-- A routine of the cache that a process calls with its directory. -/
theorem getCwd_midway {α : Type} (p : P) {x : Ent S → Cached S α}
    (hx : ∀ q, w.proc p = some q →
      Ensures (x q.cwd) w.cache fun _ c ↦ Midway ok g d { w with cache := c }) :
    Ensures (do let cwd ← getCwd p; inCache (x cwd) : Sys P F O S α) w fun _ w' ↦
      Midway ok g d w' := by
  apply (getCwd_spec w p).bind
  rintro _ _ ⟨rfl, q, hq, rfl⟩
  exact ensures_inCache (hx q hq)

/-- `sys_mkdir` and `sys_mknod`. -/
theorem sysMake_midway (h : Midway ok g d w) (p : P) (path : List UInt8) (kind : NodeKind)
    (major minor off : Nat) :
    Ensures (sysMake p path kind major minor off) w fun _ w' ↦ Midway ok g d w' := by
  unfold sysMake
  apply getCwd_midway p
  intro q hq
  rw [ensures_bind]
  have hmake := h.of_sound (x := create q.cwd path kind major minor off) id
    fun hd hc ↦ create_sound hc hd h.settled path kind major minor off (h.cwd_pos hq)
  apply hmake.mono
  intro r c h1
  cases r with
  | none =>
    refine ensures_pure.mpr (h1.congr (fun _ ↦ rfl) fun e ↦ ?_)
    simp
  | some e =>
    simp only [ensures_bind, ensures_pure]
    have hback := release_midway (w := { w with cache := c }) (x := e) (e := e) h.owed h1
    rw [ensures_bind] at hback
    exact hback

/-- `sys_remove`. -/
theorem sysRemove_midway (h : Midway ok g d w) (p : P) (path : List UInt8) :
    Ensures (sysRemove p path) w fun _ w' ↦ Midway ok g d w' := by
  unfold sysRemove
  apply getCwd_midway p
  intro q hq
  have hnonneg : ∀ e, 0 ≤ w.users e + d e := by
    intro e
    have := w.users_nonneg e
    have := h.owed e
    omega
  apply (sysRemove_sound h.cache hnonneg h.settled path (h.cwd_pos hq)).mono
  rintro _ c ⟨hc, hs⟩
  exact h.of_cache h.owed hc hs

end

/-! ### Processes -/

/-- How often a process refers to a file. -/
def owners (x : Option (Proc F S)) (f : F) : Int := ∑ fd, holds (x.bind fun q ↦ q.ofile fd) f

omit [DecidableEq F] [DecidableEq S] [Fintype P] [Fintype F] [Fintype O] [Fintype S] in
private theorem cwdEnt_update (w : World P F O S) (p : P) (x : Option (Proc F S)) :
    World.cwdEnt { w with proc := update w.proc p x } =
      update w.cwdEnt p (x.map Proc.cwd) := by
  ext p' : 1
  unfold World.cwdEnt
  by_cases hp : p' = p
  · subst hp
    simp only [update_self]
  · simp only [update_of_ne hp]

omit [DecidableEq S] [Fintype F] [Fintype O] [Fintype S] in
private theorem fdFile_update (w : World P F O S) (p : P) (x : Option (Proc F S)) (f : F) :
    (refs (World.fdFile { w with proc := update w.proc p x }) f : Int) =
      refs w.fdFile f - owners (w.proc p) f + owners x f := by
  have hsum : ∀ v : World P F O S,
      (refs v.fdFile f : Int) = ∑ p, owners (v.proc p) f := by
    intro v
    rw [refs_eq_sum, Fintype.sum_prod_type]
    rfl
  rw [hsum, hsum, ← Finset.add_sum_erase _ _ (Finset.mem_univ p),
    ← Finset.add_sum_erase Finset.univ (fun p' ↦ owners (w.proc p') f) (Finset.mem_univ p)]
  have hrest : ∑ p' ∈ Finset.univ.erase p, owners (update w.proc p x p') f =
      ∑ p' ∈ Finset.univ.erase p, owners (w.proc p') f := by
    apply Finset.sum_congr rfl
    intro p' hp'
    rw [update_of_ne (Finset.ne_of_mem_erase hp')]
  dsimp only
  rw [hrest, update_self]
  omega

/-- A process is replaced. -/
theorem Midway.withProc {g' : F → Int} {d' : Ent S → Int} (h : Midway ok g d w) (p : P)
    (x : Option (Proc F S)) (hg : ∀ f, g' f = g f + owners (w.proc p) f - owners x f)
    (hd : ∀ e, d' e = d e + holds ((w.proc p).map Proc.cwd) e - holds (x.map Proc.cwd) e)
    (howed : ∀ e, 0 ≤ d' e) :
    Midway ok g' d' { w with proc := update w.proc p x } := by
  refine ⟨?_, howed, ?_, h.settled, h.free, ⟨h.openings.held, h.openings.apart,
    h.openings.bound, h.openings.numbered, h.openings.past, h.openings.once, h.openings.unheld,
    h.openings.paired⟩⟩
  · intro f
    have hfile := h.files f
    have hsum := fdFile_update w p x f
    rw [hg f]
    change ((w.file f).ref : Int) = _ + refs w.obj f + _
    omega
  · apply h.cache.congr
    intro e
    unfold World.users
    rw [cwdEnt_update, refs_update, hd e]
    have hold : holds (w.cwdEnt p) e = holds ((w.proc p).map Proc.cwd) e := rfl
    change (refs w.fileEnt e : Int) + _ + w.dropped.count e + _ = _
    omega

omit [DecidableEq S] [Fintype F] [Fintype S] in
private theorem owners_none (f : F) : owners (none : Option (Proc F S)) f = 0 := by
  simp [owners]

/-- `sys_chdir`. -/
theorem sysChdir_midway (h : Midway ok g d w) (p : P) (path : List UInt8) :
    Ensures (sysChdir p path) w fun _ w' ↦ Midway ok g d w' := by
  unfold sysChdir
  apply (getCwd_spec w p).bind
  rintro _ _ ⟨rfl, q, hq, rfl⟩
  rw [ensures_bind]
  apply ensures_inCache
  have hname := h.of_sound (x := ename q.cwd path) id
    fun hd hc ↦ ename_sound hc hd h.settled path (h.cwd_pos hq)
  apply hname.mono
  intro r c h1
  cases r with
  | none =>
    refine ensures_pure.mpr (h1.congr (fun _ ↦ rfl) fun e ↦ ?_)
    simp
  | some e =>
    dsimp only
    rw [ensures_bind]
    apply ensures_inCache
    apply (elock_spec c e).mono
    rintro _ c1 ⟨rfl, -⟩
    rw [ensures_bind, ensures_get, ensures_ite]
    refine ⟨fun _ ↦ ?_, fun _ ↦ ?_⟩
    · simp only [ensures_bind, ensures_pure]
      apply ensures_inCache
      exact release_midway (w := { w with cache := c1 }) (e := e) h.owed h1
    · unfold setProc
      simp only [ensures_bind, ensures_modify, ensures_pure]
      apply ensures_inCache
      -- the process takes the new directory; the reference to the old one is the call's
      have hswap : Midway ok g (fun x ↦ d x + holds (some q.cwd) x)
          { w with cache := c1, proc := update w.proc p (some { q with cwd := e }) } := by
        apply h1.withProc p
        · intro f
          change _ = g f + owners (w.proc p) f - _
          rw [hq]
          have hsame : owners (some { q with cwd := e }) f = owners (some q) f := rfl
          omega
        · intro x
          change _ = d x + holds (id (some e)) x + holds ((w.proc p).map Proc.cwd) x - _
          rw [hq]
          change d x + holds (some q.cwd) x = d x + holds (some e) x + holds (some q.cwd) x -
            holds (some e) x
          omega
        · intro x
          have := h.owed x
          have := holds_nonneg (some q.cwd) x
          omega
      apply (release_midway h.owed hswap).mono
      intro _ c2 h2
      rw [hq]
      exact h2

/-! ### Descriptors -/

/-- `sys_dup`. -/
theorem sysDup_midway (h : Midway ok g d w) (p : P) (fd : Fin nofile) :
    Ensures (sysDup p fd) w fun _ w' ↦ Midway ok g d w' := by
  unfold sysDup
  apply (argfd_spec w p fd).bind
  rintro r _ ⟨rfl, hfd⟩
  cases r with
  | none => exact ensures_pure.mpr h
  | some f =>
    dsimp only
    apply (fdalloc_midway f (proc_of_fdFile hfd) h).bind
    intro r w1 h1
    cases r with
    | none =>
      obtain rfl := h1
      exact ensures_pure.mpr h
    | some fd' =>
      apply (filedup_midway f h1.2.2.2).mono
      rintro _ w2 ⟨h2, -⟩
      apply h2.congr
      · intro x
        omega
      · exact fun _ ↦ rfl

/-- `sys_close`. -/
theorem sysClose_midway (h : Midway ok g d w) (p : P) (fd : Fin nofile) :
    Ensures (sysClose p fd) w fun _ w' ↦ Midway ok g d w' := by
  unfold sysClose
  apply (argfd_spec w p fd).bind
  rintro r _ ⟨rfl, hfd⟩
  cases r with
  | none => exact ensures_pure.mpr h
  | some f =>
    dsimp only
    apply (setFd_spec w p fd none).bind
    rintro _ _ rfl
    have hfree : Midway ok (fun x ↦ g x + holds (some f) x) d (w.withFd p fd none) := by
      apply h.withFd (proc_of_fdFile hfd)
      intro x
      rw [hfd, holds_none]
      omega
    exact (fileclose_midway f hfree).mono fun _ _ h' ↦ h'.1

omit [DecidableEq P] in
/-- A call of the driver of an open device. -/
theorem useDevice_midway (h : Midway ok g d w) (f : F) (has : FileOps → Bool) :
    Ensures (useDevice f has) w fun _ w' ↦ Midway ok g d w' ∧ w'.proc = w.proc ∧
      w'.obj = w.obj := by
  unfold useDevice
  rw [ensures_bind, ensures_get]
  split
  next => exact ensures_pure.mpr ⟨h, rfl, rfl⟩
  next ops hops =>
    rw [ensures_doIf]
    refine ⟨fun huse ↦ ?_, fun _ ↦ ⟨h, rfl, rfl⟩⟩
    unfold note
    rw [ensures_modify]
    obtain ⟨-, ops', -, hmem, hnot⟩ := h.openings.held f huse.1
    have hopens : ∀ {c c' : DevCall}, c ∈ c' :: w.log → c ≠ c' → c ∈ w.log :=
      fun hc hne ↦ (List.mem_cons.mp hc).resolve_left hne
    refine ⟨⟨h.files, h.owed, h.cache, h.settled, h.free, ?_⟩, rfl, rfl⟩
    refine ⟨?_, h.openings.apart, h.openings.bound, ?_, ?_, ?_, ?_, ?_⟩
    · intro f' hdev
      obtain ⟨hopened, ops1, hops1, hmem1, hnot1⟩ := h.openings.held f' hdev
      exact ⟨hopened, ops1, hops1, List.mem_cons_of_mem _ hmem1,
        fun data hclosed ↦ hnot1 data (hopens hclosed (by simp))⟩
    · intro n ops1 r hmem1
      exact h.openings.numbered n ops1 r (hopens hmem1 (by simp))
    · intro n data hclosed
      exact h.openings.past n data (hopens hclosed (by simp))
    · intro n ops1 ops2 r1 r2 hmem1 hmem2
      exact h.openings.once n ops1 ops2 r1 r2 (hopens hmem1 (by simp)) (hopens hmem2 (by simp))
    · intro n ops1 data hmem1 hclose
      rcases h.openings.unheld n ops1 data (hopens hmem1 (by simp)) hclose with ⟨data', hc⟩ | hheld
      · exact .inl ⟨data', List.mem_cons_of_mem _ hc⟩
      · exact .inr hheld
    · intro hpaired
      exact ⟨⟨⟨ops', hmem⟩, hnot⟩, h.openings.paired hpaired⟩

omit [DecidableEq P] in
/-- An operation on the device behind a descriptor. -/
theorem sysUse_midway (h : Midway ok g d w) (p : P) (fd : Fin nofile) (has : FileOps → Bool) :
    Ensures (sysUse p fd has) w fun _ w' ↦ Midway ok g d w' := by
  unfold sysUse
  apply (argfd_spec w p fd).bind
  rintro r _ ⟨rfl, -⟩
  cases r with
  | none => exact ensures_pure.mpr h
  | some f => exact (useDevice_midway h f has).mono fun _ _ h' ↦ h'.1

/-! ### Pipes -/

omit [DecidableEq P] in
/-- An allocated file becomes an end of a pipe. -/
theorem setPipe_midway (h : Midway ok g d w) {f : F} (htype : (w.file f).type ≠ .entry ∧
      (w.file f).type ≠ .device) (href : (w.file f).ref ≠ 0) (readable writable : Bool) :
    Ensures (setFile f fun x ↦ { x with type := .pipe, readable, writable }) w fun _ w' ↦
      Midway ok g d w' ∧ w' = { w with
        file := update w.file f { w.file f with type := .pipe, readable, writable } } := by
  unfold Files.setFile
  rw [ensures_modify]
  refine ⟨?_, rfl⟩
  apply h.setFile
  · change ((w.file f).ref : Int) = _
    omega
  · exact fun _ _ ↦ rfl
  · intro e
    simp [File.ent, htype]
  · exact h.owed
  · exact fun hzero ↦ absurd hzero href
  · refine Openings.setFile (f := f) h.openings ?_ ?_ ?_
    · rfl
    · intro hdev
      cases hdev
    · exact fun hdev ↦ absurd hdev htype.2

omit [DecidableEq P] in
/-- Both files of a pipe belong to the call. -/
theorem pipealloc_midway (ftable : List F) (page : Bool) (h : Midway ok g d w) :
    Ensures (pipealloc ftable page) w fun r w' ↦ w'.proc = w.proc ∧
      match r with
      | none => Midway ok g d w'
      | some (rf, wf) => Midway ok (fun x ↦ g x + holds (some rf) x + holds (some wf) x) d w' := by
  unfold pipealloc
  apply (filealloc_midway ftable h).bind
  intro r w1 h1
  cases r with
  | none =>
    obtain rfl := h1
    exact ensures_pure.mpr ⟨rfl, h⟩
  | some rf =>
    obtain ⟨-, hw1, htype, h1⟩ := h1
    have hproc1 : w1.proc = w.proc := by rw [hw1]
    dsimp only
    apply (filealloc_midway ftable h1).bind
    intro r w2 h2
    cases r with
    | none =>
      obtain rfl := h2
      simp only [ensures_bind, ensures_pure]
      apply (fileclose_midway rf h1).mono
      rintro _ w3 ⟨h3, hproc, -⟩
      exact ⟨hproc.trans hproc1, h3⟩
    | some wf =>
      obtain ⟨hfind, hw2, htype2, h2⟩ := h2
      have hproc2 : w2.proc = w.proc := by rw [hw2, hproc1]
      have href : (w1.file rf).ref = 1 := by
        rw [hw1]
        change (update w.file rf _ rf).ref = 1
        rw [update_self]
      have hne : rf ≠ wf := by
        rintro rfl
        have hzero : (w1.file rf).ref = 0 := by simpa using List.find?_some hfind
        omega
      dsimp only
      rw [ensures_ite]
      refine ⟨fun _ ↦ ?_, fun _ ↦ ?_⟩
      · have hrf : w2.file rf = { w.file rf with ref := 1, opened := false } := by
          rw [hw2]
          change update w1.file wf _ rf = _
          rw [update_of_ne hne, hw1]
          exact update_self _ _ _
        have hwf : w2.file wf = { w1.file wf with ref := 1, opened := false } := by
          rw [hw2]
          exact update_self _ _ _
        rw [ensures_bind]
        have hset := setPipe_midway h2 (f := rf) (by rw [hrf]; simp [htype]) (by rw [hrf]; simp)
          true false
        apply hset.mono
        rintro _ w3 ⟨h3, hw3⟩
        have hwf3 : w3.file wf = w2.file wf := by
          rw [hw3]
          exact update_of_ne hne.symm _ _
        rw [ensures_bind]
        have hset' := setPipe_midway h3 (f := wf) (by rw [hwf3, hwf]; simp [htype2])
          (by rw [hwf3, hwf]; simp) false true
        apply hset'.mono
        rintro _ w4 ⟨h4, hw4⟩
        refine ensures_pure.mpr ⟨?_, h4⟩
        rw [hw4]
        change w3.proc = w.proc
        rw [hw3, ← hproc2]
      · simp only [ensures_bind, ensures_pure]
        have hswap : Midway ok (fun x ↦ g x + holds (some wf) x + holds (some rf) x) d w2 := by
          apply h2.congr
          · intro x
            omega
          · exact fun _ ↦ rfl
        apply (fileclose_midway rf hswap).mono
        rintro _ w3 ⟨h3, hproc3, -⟩
        apply (fileclose_midway wf h3).mono
        rintro _ w4 ⟨h4, hproc4, -⟩
        exact ⟨by rw [hproc4, hproc3, hproc2], h4⟩

/-- The way back of `sys_pipe`. The descriptors in `fds` hold what is not theirs. -/
theorem pipeUndo_midway {p : P} {fds : List (Fin nofile)} {rf wf : F}
    (h : Midway ok (fun x ↦ g x + holds (some rf) x + holds (some wf) x -
      (fds.map fun fd ↦ holds (w.fdFile (p, fd)) x).sum) d w)
    (hp : w.proc p ≠ none) (hnodup : fds.Nodup) :
    Ensures (pipeUndo p fds rf wf) w fun _ w' ↦ Midway ok g d w' := by
  unfold pipeUndo
  refine (ensures_forEach (fun fds w ↦ w.proc p ≠ none ∧ fds.Nodup ∧
    Midway ok (fun x ↦ g x + holds (some rf) x + holds (some wf) x -
      (fds.map fun fd ↦ holds (w.fdFile (p, fd)) x).sum) d w) ?_ ⟨hp, hnodup, h⟩).bind ?_
  case refine_2 =>
    rintro _ w1 ⟨-, -, h1⟩
    have hswap : Midway ok (fun x ↦ g x + holds (some wf) x + holds (some rf) x) d w1 := by
      apply h1.congr
      · intro x
        rw [List.map_nil, List.sum_nil]
        omega
      · exact fun _ ↦ rfl
    apply (fileclose_midway rf hswap).bind
    rintro _ w2 ⟨h2, -⟩
    exact (fileclose_midway wf h2).mono fun _ _ h' ↦ h'.1
  case refine_1 =>
    rintro fd fds w1 ⟨hp1, hnodup1, h1⟩
    rw [List.nodup_cons] at hnodup1
    apply (setFd_spec w1 p fd none).mono
    rintro _ _ rfl
    refine ⟨withFd_ne_none hp1 fd none, hnodup1.2, ?_⟩
    apply h1.withFd hp1
    intro x
    have hother : (fds.map fun fd' ↦ holds ((w1.withFd p fd none).fdFile (p, fd')) x) =
        fds.map fun fd' ↦ holds (w1.fdFile (p, fd')) x := by
      apply List.map_congr_left
      intro fd' hmem
      rw [fdFile_withFd hp1, update_of_ne]
      rintro heq
      cases heq
      exact hnodup1.1 hmem
    rw [hother, holds_none, List.map_cons, List.sum_cons]
    omega

/-- `sys_pipe`. -/
theorem sysPipe_midway (ftable : List F) (p : P) (page stored : Bool) (h : Midway ok g d w)
    (hp : w.proc p ≠ none) :
    Ensures (sysPipe ftable p page stored) w fun _ w' ↦ Midway ok g d w' := by
  unfold sysPipe
  apply (pipealloc_midway ftable page h).bind
  rintro r w1 ⟨hproc, h1⟩
  cases r with
  | none => exact ensures_pure.mpr h1
  | some r =>
    obtain ⟨rf, wf⟩ := r
    have hp1 : w1.proc p ≠ none := by rwa [hproc]
    dsimp only at h1 ⊢
    apply (fdalloc_midway rf hp1 h1).bind
    intro r w2 h2
    cases r with
    | none =>
      obtain rfl := h2
      refine pipeUndo_midway ?_ hp1 List.nodup_nil
      simpa using h1
    | some fd0 =>
      obtain ⟨hw2, -, hfd0, h2⟩ := h2
      have hp2 : w2.proc p ≠ none := by
        rw [hw2]
        exact withFd_ne_none hp1 fd0 (some rf)
      dsimp only
      apply (fdalloc_midway wf hp2 h2).bind
      intro r w3 h3
      cases r with
      | none =>
        obtain rfl := h3
        refine pipeUndo_midway ?_ hp2 (List.nodup_singleton fd0)
        simpa [hfd0] using h2
      | some fd1 =>
        obtain ⟨hw3, hfree, hfd1, h3⟩ := h3
        dsimp only
        rw [ensures_ite, ensures_pure]
        refine ⟨fun _ ↦ ?_, fun _ ↦ ?_⟩
        · apply h3.congr
          · intro x
            omega
          · exact fun _ ↦ rfl
        · have hp3 : w3.proc p ≠ none := by
            rw [hw3]
            exact withFd_ne_none hp2 fd1 (some wf)
          have hne : fd0 ≠ fd1 := by
            rintro rfl
            rw [hfd0] at hfree
            cases hfree
          have hfd0' : w3.fdFile (p, fd0) = some rf := by
            rw [hw3, fdFile_withFd hp2, update_of_ne (by simpa using hne)]
            exact hfd0
          refine pipeUndo_midway ?_ hp3 (by simpa using hne)
          apply h3.congr
          · intro x
            rw [List.map_cons, List.map_singleton, List.sum_cons, List.sum_singleton, hfd0', hfd1]
            omega
          · exact fun _ ↦ rfl

/-! ### Mappings -/

section

variable [DecidableEq O]

omit [DecidableEq P]

/-- The file behind a mapping object changes. -/
theorem Midway.withObj {g' : F → Int} (h : Midway ok g d w) (o : O) (x : Option F)
    (hg : ∀ f, g' f = g f + holds (w.obj o) f - holds x f) :
    Midway ok g' d { w with obj := update w.obj o x } := by
  refine ⟨?_, h.owed, h.cache, h.settled, h.free, ⟨h.openings.held, h.openings.apart,
    h.openings.bound, h.openings.numbered, h.openings.past, h.openings.once, h.openings.unheld,
    h.openings.paired⟩⟩
  intro f
  have hfile := h.files f
  change ((w.file f).ref : Int) = refs w.fdFile f + refs (update w.obj o x) f + g' f
  rw [refs_update, hg f]
  omega

/-- Objects whose last area goes give their files back. -/
theorem dropObjects_midway (os : List O) (h : Midway ok g d w) :
    Ensures (dropObjects os) w fun _ w' ↦ Midway ok g d w' ∧ w'.proc = w.proc := by
  unfold dropObjects
  apply ensures_forEach (fun _ w' ↦ Midway ok g d w' ∧ w'.proc = w.proc) ?_ ⟨h, rfl⟩
  rintro o _ w1 ⟨h1, hproc⟩
  unfold dropObject
  rw [ensures_bind, ensures_get]
  split
  next => exact ensures_pure.mpr ⟨h1, hproc⟩
  next f hobj =>
    rw [ensures_bind, ensures_set]
    have hfree : Midway ok (fun x ↦ g x + holds (some f) x) d
        { w1 with obj := update w1.obj o none } := by
      apply h1.withObj
      intro x
      rw [hobj, holds_none]
      omega
    apply (fileclose_midway f hfree).mono
    rintro _ w2 ⟨h2, hproc2, -⟩
    exact ⟨h2, hproc2.trans hproc⟩

/-- `sys_mmap` of a descriptor. -/
theorem sysMmap_midway (p : P) (fd : Fin nofile) {o : O} (accepted mapped : Bool)
    (h : Midway ok g d w) (ho : w.obj o = none) :
    Ensures (sysMmap p fd o accepted mapped) w fun _ w' ↦ Midway ok g d w' := by
  unfold sysMmap
  apply (argfd_spec w p fd).bind
  rintro r _ ⟨rfl, -⟩
  cases r with
  | none => exact ensures_pure.mpr h
  | some f =>
    dsimp only
    apply (useDevice_midway h f _).bind
    rintro _ w1 ⟨h1, -, hobj1⟩
    rw [ensures_doIf, ensures_bind]
    refine ⟨fun _ ↦ ?_, fun _ ↦ h1⟩
    apply (filedup_midway f h1).mono
    rintro _ w2 ⟨h2, -, hobj2⟩
    rw [ensures_ite, ensures_modify]
    refine ⟨fun _ ↦ ?_, fun _ ↦ ?_⟩
    · apply h2.withObj
      intro x
      rw [hobj2, hobj1, ho, holds_none]
      omega
    · exact (fileclose_midway f h2).mono fun _ _ h' ↦ h'.1

end

/-! ### Processes -/

omit [DecidableEq P] in
/-- The descriptors of a process are duplicated. -/
theorem forkFiles_midway (h : Midway ok g d w) (q : Proc F S) :
    Ensures (Prog.forEach (forkFile q) (List.finRange nofile)) w fun _ w' ↦
      Midway ok (fun f ↦ g f + owners (some q) f) d w' ∧ w'.proc = w.proc := by
  -- `fds` are the descriptors that are left
  refine (ensures_forEach (fun fds w' ↦ Midway ok (fun f ↦ g f + (owners (some q) f -
    (fds.map fun fd ↦ holds (q.ofile fd) f).sum)) d w' ∧ w'.proc = w.proc) ?_ ?_).mono ?_
  case refine_3 =>
    rintro _ w' ⟨h', hproc⟩
    refine ⟨h'.congr (fun f ↦ ?_) fun _ ↦ rfl, hproc⟩
    rw [List.map_nil, List.sum_nil]
    omega
  case refine_1 =>
    rintro fd fds w1 ⟨h1, hproc⟩
    unfold forkFile
    split
    next hnone =>
      refine ensures_pure.mpr ⟨h1.congr (fun f ↦ ?_) fun _ ↦ rfl, hproc⟩
      rw [List.map_cons, List.sum_cons, hnone, holds_none, zero_add]
    next f hsome =>
      apply (filedup_midway f h1).mono
      rintro _ w2 ⟨h2, hproc2, -⟩
      refine ⟨h2.congr (fun f' ↦ ?_) fun _ ↦ rfl, hproc2.trans hproc⟩
      rw [List.map_cons, List.sum_cons, hsome]
      omega
  case refine_2 =>
    refine ⟨h.congr (fun f ↦ ?_) fun _ ↦ rfl, rfl⟩
    have hsum : owners (some q) f =
      ((List.finRange nofile).map fun fd ↦ holds (q.ofile fd) f).sum :=
      Fin.sum_univ_def _
    omega

/-- `fork`. -/
theorem fork_midway (p : P) {c : P} (h : Midway ok g d w) (hc : w.proc c = none) :
    Ensures (fork p c) w fun _ w' ↦ Midway ok g d w' := by
  unfold fork
  rw [ensures_bind, ensures_get]
  split
  next => exact ensures_pure.mpr h
  next q hq =>
    apply (forkFiles_midway h q).bind
    rintro _ w1 ⟨h1, hproc⟩
    rw [ensures_bind]
    apply ensures_inCache
    have hcwd := h1.cwd_pos (p := p) (q := q) (by rw [hproc, hq])
    apply (edup_sound h1.cache hcwd).mono
    rintro _ c1 ⟨hsound, halike, -, hsame⟩
    rw [ensures_modify]
    have h2 : Midway ok (fun f ↦ g f + owners (some q) f) (fun e ↦ d e + holds (some q.cwd) e)
        { w1 with cache := c1 } := by
      apply h1.of_cache
      · intro e
        have := h.owed e
        have := holds_nonneg (some q.cwd) e
        omega
      · apply hsound.congr
        intro e
        omega
      · apply h1.settled.dup halike
        intro t ht
        left
        by_cases hte : Ent.entry t = q.cwd
        · rw [hte]
          exact hcwd.resolve_left (by rw [← hte]; simp)
        · rwa [hsame _ hte] at ht
    have hnone : w1.proc c = none := by rw [hproc, hc]
    apply h2.withProc c
    · intro f
      change g f = g f + owners (some q) f + owners (w1.proc c) f - owners (some q) f
      rw [hnone, owners_none]
      omega
    · intro e
      change d e = d e + holds (some q.cwd) e + holds ((w1.proc c).map Proc.cwd) e -
        holds (some q.cwd) e
      rw [hnone, Option.map_none, holds_none]
      omega
    · exact h.owed

/-- The start of the first process. -/
theorem start_midway {p : P} (h : Midway ok g d w) (hp : w.proc p = none) :
    Ensures (start p) w fun _ w' ↦ Midway ok g d w' := by
  unfold start
  rw [ensures_bind]
  apply ensures_inCache
  have hname := h.of_sound (x := ename .root [0x2f]) id
    fun hd hc ↦ ename_sound hc hd h.settled [0x2f] (.inl rfl)
  apply hname.mono
  intro r c h1
  cases r with
  | none =>
    refine ensures_pure.mpr (h1.congr (fun _ ↦ rfl) fun e ↦ ?_)
    simp
  | some e =>
    rw [ensures_modify]
    apply h1.withProc p
    · intro f
      change g f = g f + owners (w.proc p) f - owners (some ⟨fun _ ↦ none, e⟩) f
      have hnew : owners (some (⟨fun _ ↦ none, e⟩ : Proc F S)) f = 0 := by simp [owners]
      rw [hp, owners_none, hnew]
      omega
    · intro x
      change d x = d x + holds (some e) x + holds ((w.proc p).map Proc.cwd) x - holds (some e) x
      rw [hp, Option.map_none, holds_none]
      omega
    · exact h.owed

section

variable [DecidableEq O]

omit [DecidableEq P] in
/-- `exec`. -/
theorem exec_midway (p : P) (path : List UInt8) (loaded : Bool) (os : List O)
    (h : Midway ok g d w) :
    Ensures (exec p path loaded os) w fun _ w' ↦ Midway ok g d w' := by
  unfold exec
  apply (getCwd_spec w p).bind
  rintro _ _ ⟨rfl, q, hq, rfl⟩
  rw [ensures_bind]
  apply ensures_inCache
  have hname := h.of_sound (x := ename q.cwd path) id
    fun hd hc ↦ ename_sound hc hd h.settled path (h.cwd_pos hq)
  apply hname.mono
  intro r c h1
  cases r with
  | none =>
    refine ensures_pure.mpr (h1.congr (fun _ ↦ rfl) fun e ↦ ?_)
    simp
  | some e =>
    dsimp only
    rw [ensures_bind]
    apply ensures_inCache
    apply (elock_spec c e).mono
    rintro _ c1 ⟨rfl, -⟩
    rw [ensures_bind, ensures_doIf]
    have hback : ∀ {w1 : World P F O S}, Midway ok g (fun x ↦ d x + holds (some e) x) w1 →
        Ensures (inCache (do eunlock e; eput e)) w1 fun _ w' ↦ Midway ok g d w' :=
      fun h2 ↦ ensures_inCache (release_midway h.owed h2)
    refine ⟨fun _ ↦ ?_, fun _ ↦ hback h1⟩
    exact (dropObjects_midway os h1).mono fun _ _ h2 ↦ hback h2.1

omit [DecidableEq O] in
/-- The descriptors are closed in `exit`. -/
theorem exitFiles_midway (h : Midway ok g d w) (p : P) :
    Ensures (Prog.forEach (exitFile p) (List.finRange nofile)) w fun _ w' ↦
      Midway ok g d w' ∧ ∀ fd, w'.fdFile (p, fd) = none := by
  -- the descriptors that are not left are free
  refine (ensures_forEach (fun fds w' ↦ Midway ok g d w' ∧
    ∀ fd, fd ∉ fds → w'.fdFile (p, fd) = none) ?_
      ⟨h, fun fd hfd ↦ absurd (List.mem_finRange fd) hfd⟩).mono ?_
  case refine_2 => exact fun _ w' h' ↦ ⟨h'.1, fun fd ↦ h'.2 fd List.not_mem_nil⟩
  case refine_1 =>
    rintro fd fds w1 ⟨h1, hrest⟩
    unfold exitFile
    apply (argfd_spec w1 p fd).bind
    rintro r _ ⟨rfl, hfd⟩
    cases r with
    | none =>
      refine ensures_pure.mpr ⟨h1, fun fd' hfd' ↦ ?_⟩
      by_cases heq : fd' = fd
      · rw [heq]
        exact hfd
      · exact hrest fd' (by simp [heq, hfd'])
    | some f =>
      dsimp only
      rw [ensures_bind]
      have hdebt : Midway ok (fun x ↦ g x - holds (some f) x + holds (some f) x) d w1 := by
        apply h1.congr
        · intro x
          omega
        · exact fun _ ↦ rfl
      apply (fileclose_midway f hdebt).mono
      rintro _ w2 ⟨h2, hproc, -⟩
      have hfds : w2.fdFile = w1.fdFile := by
        unfold World.fdFile
        rw [hproc]
      have hp : w2.proc p ≠ none := by
        rw [hproc]
        exact proc_of_fdFile hfd
      apply (setFd_spec w2 p fd none).mono
      rintro _ _ rfl
      refine ⟨?_, fun fd' hfd' ↦ ?_⟩
      · apply h2.withFd hp
        intro x
        rw [hfds, hfd, holds_none]
        omega
      · rw [fdFile_withFd hp]
        by_cases heq : fd' = fd
        · rw [heq, update_self]
        · rw [update_of_ne (by simpa using heq), hfds]
          exact hrest fd' (by simp [heq, hfd'])

/-- `exit`. -/
theorem exit_midway (p : P) (os : List O) (h : Midway ok g d w) :
    Ensures (exit p os) w fun _ w' ↦ Midway ok g d w' := by
  unfold exit
  apply (exitFiles_midway h p).bind
  rintro _ w1 ⟨h1, hfree⟩
  apply (dropObjects_midway os h1).bind
  rintro _ w2 ⟨h2, hproc⟩
  apply (getCwd_spec w2 p).bind
  rintro _ _ ⟨rfl, q, hq, rfl⟩
  rw [ensures_bind]
  apply ensures_inCache
  have hempty : ∀ f, owners (w2.proc p) f = 0 := by
    intro f
    unfold owners
    apply Finset.sum_eq_zero
    intro fd _
    have hfd : w2.fdFile (p, fd) = none := by
      unfold World.fdFile
      rw [hproc]
      exact hfree fd
    change holds (w2.fdFile (p, fd)) f = 0
    rw [hfd, holds_none]
  have hgone : Midway ok g (fun e ↦ d e + holds (some q.cwd) e)
      { w2 with proc := update w2.proc p none } := by
    apply h2.withProc p
    · intro f
      rw [hempty, owners_none]
      omega
    · intro e
      rw [hq, Option.map_none, holds_none]
      change d e + holds (some q.cwd) e = d e + holds (some q.cwd) e - 0
      omega
    · intro e
      have := h.owed e
      have := holds_nonneg (some q.cwd) e
      omega
  apply (eput_midway h.owed hgone).mono
  intro _ c h3
  rw [ensures_modify]
  exact h3

/-! ### Runs -/

/-- Every call keeps the counts. -/
theorem runCall_midway (devices : Nat → Option FileOps) (ftable : List F) {call : Call P O}
    (h : Midway ok g d w) (hen : Enabled w call) (hharm : ok → Harmless devices ftable w call) :
    Ensures (runCall devices ftable call) w fun _ w' ↦ Midway ok g d w' := by
  have hdrop : ∀ {α : Type} {x : Sys P F O S α}, Ensures x w (fun _ w' ↦ Midway ok g d w') →
      Ensures (do let _ ← x; pure ()) w fun _ w' ↦ Midway ok g d w' := by
    intro α x hx
    simp only [ensures_bind, ensures_pure]
    exact hx
  cases call with
  | start p => exact start_midway h (hen p)
  | «open» p path omode off answer =>
    exact hdrop (sysOpen_midway devices ftable path omode off answer h hharm)
  | mkdir p path off => exact hdrop (sysMake_midway h p path .dir 0 0 off)
  | mknod p path major minor off =>
    apply hdrop
    unfold sysMknod
    rw [ensures_ite, ensures_pure]
    exact ⟨fun _ ↦ h, fun _ ↦ sysMake_midway h p path .device major.toNat minor.toNat off⟩
  | remove p path => exact hdrop (sysRemove_midway h p path)
  | chdir p path => exact hdrop (sysChdir_midway h p path)
  | dup p fd => exact sysDup_midway h p fd
  | close p fd => exact sysClose_midway h p fd
  | use p fd has => exact sysUse_midway h p fd has
  | pipe p page stored =>
    exact sysPipe_midway ftable p page stored h (Option.isSome_iff_ne_none.mp hen)
  | mmap p fd o accepted mapped => exact sysMmap_midway p fd accepted mapped h hen.2
  | munmap p os => exact (dropObjects_midway os h).mono fun _ _ h' ↦ h'.1
  | fork p c => exact fork_midway p h hen.2
  | exec p path loaded os => exact exec_midway p path loaded os h
  | exit p os => exact exit_midway p os h

/-- The counts are right, and what is known of the openings holds. -/
def Books (ok : Prop) (w : World P F O S) : Prop := Midway ok (fun _ ↦ 0) (fun _ ↦ 0) w

/-- A call that returns keeps the books. -/
theorem Books.step {devices : Nat → Option FileOps} {ftable : List F} {w' : World P F O S}
    {e : Event P O} (h : Books ok w) (hstep : Step devices ftable w e w')
    (hharm : ok → Harmless devices ftable (w.answers e) e.call) : Books ok w' := by
  have hsame : Same w.cache (w.answers e).cache := .of_ent rfl rfl
  have h' : Books ok (w.answers e) :=
    h.of_cache h.owed (h.cache.same hsame) (h.settled.same hsame)
  have hen : Enabled (w.answers e) e.call := by
    have := hstep.1
    cases hc : e.call <;> rw [hc] at this <;> exact this
  exact (runCall_midway devices ftable h' hen hharm).of_ok () w' hstep.2

omit [DecidableEq P] [DecidableEq O] [Fintype S] [DecidableEq S] in
/-- Before the first process starts, nothing is referred to. -/
theorem books_boot (n rootClus : Nat) :
    Books ok (World.boot n rootClus : World P F O (Fin n)) := by
  have hsound := Users.sound_boot n rootClus
  refine ⟨?_, fun _ ↦ le_rfl, ?_, hsound.2, fun _ _ ↦ rfl, ?_⟩
  · intro f
    have hfds : refs (World.boot n rootClus : World P F O (Fin n)).fdFile f = 0 := refs_none f
    have hobjs : refs (World.boot n rootClus : World P F O (Fin n)).obj f = 0 := refs_none f
    rw [hfds, hobjs]
    rfl
  · apply hsound.1.congr
    intro e
    have hfiles : refs (World.boot n rootClus : World P F O (Fin n)).fileEnt e = 0 := refs_none e
    have hcwds : refs (World.boot n rootClus : World P F O (Fin n)).cwdEnt e = 0 := refs_none e
    unfold World.users
    rw [hfiles, hcwds]
    rfl
  · refine ⟨?_, fun f f' hne ↦ absurd rfl hne, fun _ ↦ le_rfl, ?_, ?_, ?_, ?_, fun _ ↦ trivial⟩
    · intro f hdev
      cases hdev
    · intro n' ops r hmem
      cases hmem
    · intro n' data hmem
      cases hmem
    · intro n' ops ops' r r' hmem
      cases hmem
    · intro n' ops data hmem
      cases hmem

end

end Xv6K210.Files
