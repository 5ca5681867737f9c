import Xv6K210.Files.Calls

/-!
# What the files refer to

The invariant of the calls: the counts of the files and of the entries, and what is
known of the files that are open on devices. In the middle of a call some references are counted
and not held yet.
-/

namespace Xv6K210.Files

open Xv6K210.Base Xv6K210.Fs Xv6K210.Ecache Prog Function
open Xv6K210.Vm (nofile oAccmode oCreate oTrunc oOther parseAccessMode)

variable {P F O S : Type}

/-! ### References -/

/-- The entry that an open file refers to. -/
def File.ent (x : File S) : Option (Ent S) :=
  if 0 < x.ref ∧ (x.type = .entry ∨ x.type = .device) then x.ep else none

/-- The entries that the files refer to. -/
def World.fileEnt (w : World P F O S) (f : F) : Option (Ent S) := (w.file f).ent

/-- The directories of the processes. -/
def World.cwdEnt (w : World P F O S) (p : P) : Option (Ent S) := (w.proc p).map Proc.cwd

/-- The files that the descriptors refer to. -/
def World.fdFile (w : World P F O S) (x : P × Fin nofile) : Option F :=
  (w.proc x.1).bind fun q ↦ q.ofile x.2

/-- The private data that opening `n` set may be used. -/
def Live (log : List DevCall) (n : Nat) (data : Option Nat) : Prop :=
  (∃ ops, .opened n ops (some data) ∈ log) ∧ ∀ data', .closed n data' ∉ log

/-- Every call of a driver after its opening is for one that succeeded and that is not closed
yet. -/
def Paired : List DevCall → Prop
  | [] => True
  | .opened _ _ _ :: log => Paired log
  | .used n data :: log => Live log n data ∧ Paired log
  | .closed n data :: log => Live log n data ∧ Paired log

/-- What is known of the files that are open on devices. When `ok` holds, the calls are paired. -/
structure Openings (ok : Prop) (w : World P F O S) : Prop where
  held : ∀ f, (w.file f).type = .device → (w.file f).opened = true ∧
    ∃ ops, (w.file f).ops = some ops ∧
      .opened (w.file f).opening ops (some (w.file f).privateData) ∈ w.log ∧
        ∀ data, .closed (w.file f).opening data ∉ w.log
  apart : ∀ f f', (w.file f).opening ≠ 0 → (w.file f').opening = (w.file f).opening → f' = f
  bound : ∀ f, (w.file f).opening ≤ w.openings
  numbered : ∀ n ops r, .opened n ops r ∈ w.log → n ≠ 0 ∧ n ≤ w.openings
  past : ∀ n data, .closed n data ∈ w.log → n ≤ w.openings
  once : ∀ n ops ops' r r', .opened n ops r ∈ w.log → .opened n ops' r' ∈ w.log →
    ops' = ops ∧ r' = r
  unheld : ∀ n ops data, .opened n ops (some data) ∈ w.log → ops.hasClose = true →
    (∃ data', .closed n data' ∈ w.log) ∨ ∃ f, (w.file f).type = .device ∧ (w.file f).opening = n
  paired : ok → Paired w.log

/-- A routine of the cache ensures what it ensures of the cache. -/
theorem ensures_inCache {α : Type} {x : Cached S α} {w : World P F O S}
    {post : α → World P F O S → Prop}
    (h : Ensures x w.cache fun a c ↦ post a { w with cache := c }) :
    Ensures (inCache x) w post := by
  constructor
  intro a w' heq
  unfold inCache at heq
  cases hx : x w.cache with
  | error msg =>
    rw [hx] at heq
    cases heq
  | ok r =>
    rw [hx] at heq
    cases heq
    exact h.of_ok r.1 r.2 hx

section

variable [DecidableEq S] [Fintype P] [Fintype F]

/-- How often files, directories of processes and closed device files refer to an entry. -/
def World.users (w : World P F O S) (e : Ent S) : Int :=
  refs w.fileEnt e + refs w.cwdEnt e + w.dropped.count e

/-- No entry has a negative number of users. -/
theorem World.users_nonneg (w : World P F O S) (e : Ent S) : 0 ≤ w.users e := by
  unfold World.users
  omega

end

variable [DecidableEq F] [DecidableEq S] [Fintype P] [Fintype F] [Fintype O] [Fintype S]

/-- In the middle of a call: `g` and `d` say how many references to a file and to an entry are
counted and not held yet. -/
structure Midway (ok : Prop) (g : F → Int) (d : Ent S → Int) (w : World P F O S) : Prop where
  files : ∀ f, ((w.file f).ref : Int) = refs w.fdFile f + refs w.obj f + g f
  owed : ∀ e, 0 ≤ d e
  cache : Ecache.Sound (fun e ↦ w.users e + d e) w.cache
  settled : Settled w.cache
  free : ∀ f, (w.file f).ref = 0 → (w.file f).type = .none
  openings : Openings ok w

variable {ok : Prop} {g g' : F → Int} {d d' : Ent S → Int} {w : World P F O S}

/-- The references may be written differently. -/
theorem Midway.congr (h : Midway ok g d w) (hg : ∀ f, g' f = g f) (hd : ∀ e, d' e = d e) :
    Midway ok g' d' w := by
  obtain rfl : g' = g := funext hg
  obtain rfl : d' = d := funext hd
  exact h

/-- Nothing but the cache changes, and not what is counted there. -/
theorem Midway.of_cache (h : Midway ok g d w) {c : Cache S} (howed : ∀ e, 0 ≤ d' e)
    (hc : Ecache.Sound (fun e ↦ w.users e + d' e) c) (hs : Settled c) :
    Midway ok g d' { w with cache := c } :=
  ⟨h.files, howed, hc, hs, h.free, ⟨h.openings.held, h.openings.apart, h.openings.bound,
    h.openings.numbered, h.openings.past, h.openings.once, h.openings.unheld, h.openings.paired⟩⟩

/-- An entry to which the call holds a reference is given back. -/
theorem eput_midway {e : Ent S} (howed : ∀ x, 0 ≤ d x)
    (h : Midway ok g (fun x ↦ d x + holds (some e) x) w) :
    Ensures (eput e) w.cache fun _ c ↦ Midway ok g d { w with cache := c } := by
  have hnonneg : ∀ x, 0 ≤ w.users x + d x := by
    intro x
    have := w.users_nonneg x
    have := howed x
    omega
  have hsound : Ecache.Sound (fun x ↦ w.users x + d x + holds (some e) x) w.cache := by
    apply h.cache.congr
    intro x
    omega
  apply (eput_settled hnonneg hsound h.settled).mono
  rintro _ c ⟨hc, hs⟩
  exact h.of_cache howed hc hs

/-- `eunlock`, and an entry is given back. -/
theorem release_midway {x e : Ent S} (howed : ∀ x, 0 ≤ d x)
    (h : Midway ok g (fun x ↦ d x + holds (some e) x) w) :
    Ensures (do eunlock x; eput e : Cached S Unit) w.cache fun _ c ↦
      Midway ok g d { w with cache := c } := by
  apply (eunlock_spec w.cache x).bind
  rintro _ c rfl
  exact eput_midway howed h

omit [DecidableEq S] [Fintype P] [Fintype F] [Fintype O] [Fintype S] in
/-- Changing a file only concerns that file. -/
theorem fileEnt_update (w : World P F O S) (f : F) (x : File S) :
    World.fileEnt { w with file := update w.file f x } =
      update w.fileEnt f x.ent := by
  ext f' : 1
  unfold World.fileEnt
  by_cases hf : f' = f
  · subst hf
    simp only [update_self]
  · simp only [update_of_ne hf]

omit [Fintype O] [Fintype S] in
private theorem users_update (w : World P F O S) (f : F) (x : File S) (e : Ent S) :
    World.users { w with file := update w.file f x } e =
      w.users e - holds (w.file f).ent e + holds x.ent e := by
  unfold World.users
  rw [fileEnt_update, refs_update]
  change (refs w.fileEnt e : Int) - holds (w.file f).ent e + holds x.ent e + refs w.cwdEnt e +
    w.dropped.count e = _
  have hold : holds (w.fileEnt f) e = holds (w.file f).ent e := rfl
  omega

omit [Fintype P] [Fintype F] [Fintype O] [Fintype S] [DecidableEq S] in
/-- A file changes, and not what it is open on. -/
theorem Openings.setFile (h : Openings ok w) {f : F} {x : File S}
    (hopening : x.opening = (w.file f).opening)
    (hto : x.type = .device → (w.file f).type = .device ∧ x.opened = (w.file f).opened ∧
      x.ops = (w.file f).ops ∧ x.privateData = (w.file f).privateData)
    (hof : (w.file f).type = .device → x.type = .device) :
    Openings ok { w with file := update w.file f x } := by
  have hsame : ∀ f', (update w.file f x f').opening = (w.file f').opening := by
    intro f'
    by_cases hf : f' = f
    · rw [hf, update_self, hopening]
    · rw [update_of_ne hf]
  refine ⟨?_, ?_, ?_, h.numbered, h.past, h.once, ?_, h.paired⟩
  · intro f' hdev
    change (update w.file f x f').type = .device at hdev
    change (update w.file f x f').opened = true ∧
      ∃ ops, (update w.file f x f').ops = some ops ∧
        .opened (update w.file f x f').opening ops
          (some (update w.file f x f').privateData) ∈ w.log ∧
          ∀ data, .closed (update w.file f x f').opening data ∉ w.log
    by_cases hf : f' = f
    · subst hf
      rw [update_self] at hdev ⊢
      obtain ⟨hdev', hopened, hops, hdata⟩ := hto hdev
      rw [hopened, hops, hdata, hopening]
      exact h.held f' hdev'
    · rw [update_of_ne hf] at hdev ⊢
      exact h.held f' hdev
  · intro f1 f2 hne heq
    exact h.apart f1 f2 (by rwa [← hsame f1]) (by rw [← hsame f2, ← hsame f1]; exact heq)
  · intro f'
    rw [hsame f']
    exact h.bound f'
  · intro n ops data hmem hclose
    rcases h.unheld n ops data hmem hclose with hclosed | ⟨f', hdev, hn⟩
    · exact .inl hclosed
    · right
      refine ⟨f', ?_, by rw [hsame f']; exact hn⟩
      by_cases hf : f' = f
      · subst hf
        change (update w.file f' x f').type = .device
        rw [update_self]
        exact hof hdev
      · change (update w.file f x f').type = .device
        rw [update_of_ne hf]
        exact hdev

/-- A file changes, and its count with the references to it. -/
theorem Midway.setFile (h : Midway ok g d w) {f : F} {x : File S} {n : Nat} {log : List DevCall}
    (hx : (x.ref : Int) = (w.file f).ref + (g' f - g f)) (hg : ∀ f', f' ≠ f → g' f' = g f')
    (hd : ∀ e, d' e = d e + holds (w.file f).ent e - holds x.ent e) (howed : ∀ e, 0 ≤ d' e)
    (hfree : x.ref = 0 → x.type = .none)
    (hopen : Openings ok { w with file := update w.file f x, openings := n, log }) :
    Midway ok g' d' { w with file := update w.file f x, openings := n, log } := by
  refine ⟨?_, howed, ?_, h.settled, ?_, hopen⟩
  · intro f'
    have hfile := h.files f'
    change ((update w.file f x f').ref : Int) = refs w.fdFile f' + refs w.obj f' + g' f'
    by_cases hf : f' = f
    · subst hf
      rw [update_self]
      omega
    · rw [update_of_ne hf, hg f' hf]
      exact hfile
  · apply h.cache.congr
    intro e
    have husers := users_update w f x e
    change World.users { w with file := update w.file f x } e + d' e = _
    rw [husers, hd e]
    omega
  · intro f'
    change (update w.file f x f').ref = 0 → (update w.file f x f').type = .none
    by_cases hf : f' = f
    · subst hf
      rw [update_self]
      exact hfree
    · rw [update_of_ne hf]
      exact h.free f'

/-! ### The table of files -/

/-- The file that `filealloc` finds belongs to the call. -/
theorem filealloc_midway (ftable : List F) (h : Midway ok g d w) :
    Ensures (filealloc ftable) w fun r w' ↦
      match r with
      | none => w' = w
      | some f => (ftable.find? fun f ↦ (w.file f).ref = 0) = some f ∧
          w' = { w with
            file := update w.file f { w.file f with ref := 1, opened := false } } ∧
          (w.file f).type = .none ∧ Midway ok (fun x ↦ g x + holds (some f) x) d w' := by
  unfold filealloc
  rw [ensures_bind, ensures_get]
  split
  next => exact ensures_pure.mpr rfl
  next f hfind =>
    have href : (w.file f).ref = 0 := by simpa using List.find?_some hfind
    have hnone := h.free f href
    unfold Files.setFile
    simp only [ensures_bind, ensures_modify, ensures_pure]
    refine ⟨hfind, trivial, hnone, ?_⟩
    apply h.setFile
    · rw [href, holds_self]
      push_cast
      omega
    · intro f' hf
      rw [holds_of_ne (Ne.symm hf), add_zero]
    · intro e
      simp [File.ent, hnone]
    · exact h.owed
    · intro hzero
      cases hzero
    · refine Openings.setFile (f := f) h.openings ?_ ?_ ?_
      · rfl
      · intro hdev
        exact absurd (hnone.symm.trans hdev) (by simp)
      · intro hdev
        exact absurd (hnone.symm.trans hdev) (by simp)

/-- `filedup` of a file that is owed a reference. -/
theorem filedup_midway (f : F) (h : Midway ok g d w) :
    Ensures (filedup f) w fun _ w' ↦ Midway ok (fun x ↦ g x + holds (some f) x) d w' ∧
      w'.proc = w.proc ∧ w'.obj = w.obj := by
  unfold filedup
  rw [ensures_bind, ensures_get, ensures_ite]
  refine ⟨fun _ ↦ ensures_halt, fun href ↦ ?_⟩
  unfold Files.setFile
  rw [ensures_modify]
  refine ⟨?_, rfl, rfl⟩
  apply h.setFile
  · rw [holds_self]
    push_cast
    omega
  · intro f' hf
    rw [holds_of_ne (Ne.symm hf), add_zero]
  · intro e
    have hent : File.ent { w.file f with ref := (w.file f).ref + 1 } = (w.file f).ent := by
      unfold File.ent
      simp only [show 0 < (w.file f).ref by omega, Nat.zero_lt_succ]
    rw [hent]
    omega
  · exact h.owed
  · intro hzero
    cases hzero
  · exact h.openings.setFile rfl (fun hdev ↦ ⟨hdev, rfl, rfl, rfl⟩) fun hdev ↦ hdev

omit [DecidableEq F] [DecidableEq S] [Fintype P] [Fintype F] [Fintype O] [Fintype S] in
/-- The number of a file that is open on a device has been given. -/
theorem Openings.opening_ne_zero (h : Openings ok w) {f : F} (hdev : (w.file f).type = .device) :
    (w.file f).opening ≠ 0 := by
  obtain ⟨-, ops, -, hmem, -⟩ := h.held f hdev
  exact (h.numbered _ _ _ hmem).1

omit [DecidableEq S] [Fintype P] [Fintype F] [Fintype O] [Fintype S] in
/-- A file that is open on a device is closed, with a call of the driver if it has one for
that. -/
theorem Openings.close (h : Openings ok w) {f : F} (hdev : (w.file f).type = .device)
    {ops : FileOps} (hops : (w.file f).ops = some ops) {log : List DevCall}
    (hlog : log = if ops.hasClose then
      .closed (w.file f).opening (w.file f).privateData :: w.log else w.log)
    (dropped : List (Ent S)) :
    Openings ok { w with
      file := update w.file f { w.file f with ref := 0, type := .none }
      log, dropped } := by
  set w' : World P F O S := { w with
    file := update w.file f { w.file f with ref := 0, type := .none }
    log, dropped } with hw'
  obtain ⟨hopened, ops', hops', hmem, hnot⟩ := h.held f hdev
  obtain rfl : ops' = ops := Option.some.inj (hops'.symm.trans hops)
  have hother : ∀ f', f' ≠ f → w'.file f' = w.file f' := fun f' hf ↦ update_of_ne hf _ _
  have hself : w'.file f = { w.file f with ref := 0, type := .none } := update_self _ _ _
  have hsame : ∀ f', (w'.file f').opening = (w.file f').opening := by
    intro f'
    by_cases hf : f' = f
    · rw [hf, hself]
    · rw [hother f' hf]
  have hdevice : ∀ f', (w'.file f').type = .device → f' ≠ f := by
    rintro f' hdev' rfl
    rw [hself] at hdev'
    cases hdev'
  have hopens : ∀ n ops r, .opened n ops r ∈ log ↔ .opened n ops r ∈ w.log := by
    intro n ops r
    rw [hlog]
    split
    · simp
    · rfl
  have hcloses : ∀ n data, .closed n data ∈ log →
      .closed n data ∈ w.log ∨ n = (w.file f).opening := by
    intro n data
    rw [hlog]
    split
    · rw [List.mem_cons]
      rintro (heq | hmem)
      · cases heq
        exact .inr rfl
      · exact .inl hmem
    · exact .inl
  refine ⟨?_, ?_, ?_, ?_, ?_, ?_, ?_, ?_⟩
  · intro f' hdev'
    have hf := hdevice f' hdev'
    rw [hother f' hf] at hdev' ⊢
    obtain ⟨hopened', ops1, hops1, hmem1, hnot1⟩ := h.held f' hdev'
    refine ⟨hopened', ops1, hops1, (hopens _ _ _).mpr hmem1, fun data hclosed ↦ ?_⟩
    rcases hcloses _ _ hclosed with hold | heq
    · exact hnot1 data hold
    · exact hf (h.apart f f' (h.opening_ne_zero hdev) heq)
  · intro f1 f2 hne heq
    rw [hsame] at hne heq
    rw [hsame] at heq
    exact h.apart f1 f2 hne heq
  · intro f'
    rw [hsame]
    exact h.bound f'
  · intro n ops r hopen
    exact h.numbered n ops r ((hopens _ _ _).mp hopen)
  · intro n data hclosed
    rcases hcloses _ _ hclosed with hold | rfl
    · exact h.past n data hold
    · exact h.bound f
  · intro n ops ops' r r' hopen hopen'
    exact h.once n ops ops' r r' ((hopens _ _ _).mp hopen) ((hopens _ _ _).mp hopen')
  · intro n ops1 data hopen hclose
    have hopen' := (hopens _ _ _).mp hopen
    by_cases hn : n = (w.file f).opening
    · subst hn
      left
      obtain ⟨rfl, -⟩ := h.once _ _ _ _ _ hopen' hmem
      refine ⟨(w.file f).privateData, ?_⟩
      change _ ∈ log
      rw [hlog, if_pos hclose]
      exact List.mem_cons_self
    · rcases h.unheld n ops1 data hopen' hclose with ⟨data', hclosed⟩ | ⟨f', hdev', hn'⟩
      · refine .inl ⟨data', ?_⟩
        change _ ∈ log
        rw [hlog]
        split
        · exact List.mem_cons_of_mem _ hclosed
        · exact hclosed
      · have hf : f' ≠ f := by
          rintro rfl
          exact hn hn'.symm
        refine .inr ⟨f', ?_, ?_⟩
        · rw [hother f' hf]
          exact hdev'
        · rw [hother f' hf]
          exact hn'
  · intro hok
    change Paired log
    rw [hlog]
    split
    · exact ⟨⟨⟨ops', hmem⟩, hnot⟩, h.paired hok⟩
    · exact h.paired hok

omit [Fintype O] [Fintype S] in
/-- The entry of a device file that was opened stays counted when the file is closed. -/
theorem users_drop (w : World P F O S) {f : F} {x : File S} (hx : x.ent = none) (e : Ent S)
    (log : List DevCall) :
    World.users { w with
      file := update w.file f x
      log
      dropped := (w.file f).ent.toList ++ w.dropped } e = w.users e := by
  unfold World.users
  change (refs (World.fileEnt { w with file := update w.file f x }) e : Int) +
    refs w.cwdEnt e + ((w.file f).ent.toList ++ w.dropped).count e = _
  rw [fileEnt_update, refs_update, hx, holds_none, count_cons]
  have hold : holds (w.fileEnt f) e = holds (w.file f).ent e := rfl
  omega

/-- `fileclose` takes a reference that is owed. -/
theorem fileclose_midway (f : F) (h : Midway ok (fun x ↦ g x + holds (some f) x) d w) :
    Ensures (fileclose f) w fun _ w' ↦ Midway ok g d w' ∧ w'.proc = w.proc ∧ w'.obj = w.obj := by
  have hother : ∀ f', f' ≠ f → g f' = g f' + holds (some f) f' := by
    intro f' hf
    rw [holds_of_ne (Ne.symm hf), add_zero]
  unfold fileclose
  rw [ensures_bind, ensures_get, ensures_ite, ensures_ite]
  refine ⟨fun _ ↦ ensures_halt, fun href ↦ ⟨fun hmany ↦ ?_, fun hlast ↦ ?_⟩⟩
  · unfold Files.setFile
    rw [ensures_modify]
    refine ⟨?_, rfl, rfl⟩
    apply h.setFile
    · rw [holds_self]
      change (((w.file f).ref - 1 : Nat) : Int) = _
      omega
    · exact hother
    · intro e
      have hent : File.ent { w.file f with ref := (w.file f).ref - 1 } = (w.file f).ent := by
        unfold File.ent
        simp only [show 0 < (w.file f).ref by omega, show 0 < (w.file f).ref - 1 by omega]
      rw [hent]
      omega
    · exact h.owed
    · intro hzero
      change (w.file f).ref - 1 = 0 at hzero
      omega
    · exact h.openings.setFile rfl (fun hdev ↦ ⟨hdev, rfl, rfl, rfl⟩) fun hdev ↦ hdev
  · have hone : (w.file f).ref = 1 := by omega
    have hgone : File.ent { w.file f with ref := 0, type := .none } = none := by simp [File.ent]
    have hset : ∀ {d' : Ent S → Int}, (w.file f).type ≠ .device →
        (∀ e, d' e = d e + holds (w.file f).ent e) → Midway ok g d' { w with
          file := update w.file f { w.file f with ref := 0, type := .none } } := by
      intro d' hdev hd
      apply h.setFile
      · rw [holds_self, hone]
        push_cast
        omega
      · exact hother
      · intro e
        rw [hgone, holds_none, hd e]
        omega
      · intro e
        have := holds_nonneg (w.file f).ent e
        have := h.owed e
        rw [hd e]
        omega
      · intro _
        rfl
      · refine Openings.setFile (f := f) h.openings ?_ ?_ ?_
        · rfl
        · intro hdev'
          cases hdev'
        · exact fun hdev' ↦ absurd hdev' hdev
    unfold Files.setFile
    rw [ensures_bind, ensures_modify]
    unfold closeLast
    cases htype : (w.file f).type with
    | none =>
      refine ensures_pure.mpr ⟨?_, rfl, rfl⟩
      apply hset (by simp [htype])
      intro e
      simp [File.ent, htype]
    | pipe =>
      refine ensures_pure.mpr ⟨?_, rfl, rfl⟩
      apply hset (by simp [htype])
      intro e
      simp [File.ent, htype]
    | entry =>
      cases hep : (w.file f).ep with
      | none => exact ensures_halt
      | some e =>
        apply ensures_inCache
        have hent : (w.file f).ent = some e := by simp [File.ent, htype, hep, hone]
        have hmid : Midway ok g (fun x ↦ d x + holds (some e) x) { w with
            file := update w.file f { w.file f with ref := 0, type := .none } } := by
          apply hset
          · simp [htype]
          · intro x
            rw [hent]
        exact (eput_midway h.owed hmid).mono fun _ _ h' ↦ ⟨h', rfl, rfl⟩
    | device =>
      obtain ⟨hopened, ops, hops, -⟩ := h.openings.held f htype
      have hent : (w.file f).ent = (w.file f).ep := by simp [File.ent, htype, hone]
      have hclosed : ∀ log : List DevCall, (log = if ops.hasClose then
          .closed (w.file f).opening (w.file f).privateData :: w.log else w.log) →
            Midway ok g d { w with
              file := update w.file f { w.file f with ref := 0, type := .none }
              log
              dropped := (w.file f).ep.toList ++ w.dropped } := by
        intro log hlog
        refine ⟨?_, h.owed, ?_, h.settled, ?_, h.openings.close htype hops hlog _⟩
        · intro f'
          have hfile := h.files f'
          change ((update w.file f _ f').ref : Int) =
            refs w.fdFile f' + refs w.obj f' + g f'
          by_cases hf : f' = f
          · subst hf
            rw [hone, holds_self] at hfile
            rw [update_self]
            push_cast at hfile ⊢
            omega
          · rw [update_of_ne hf, hother f' hf]
            exact hfile
        · apply h.cache.congr
          intro e
          rw [← hent, users_drop w hgone]
        · intro f'
          change (update w.file f _ f').ref = 0 → (update w.file f _ f').type = .none
          by_cases hf : f' = f
          · subst hf
            rw [update_self]
            exact fun _ ↦ rfl
          · rw [update_of_ne hf]
            exact h.free f'
      rw [hopened, hops]
      simp only [ensures_bind, ensures_modify, ensures_doIf, note, if_true]
      refine ⟨fun hclose ↦ ⟨hclosed _ ?_, trivial, trivial⟩,
        fun hclose ↦ ⟨hclosed _ ?_, trivial, trivial⟩⟩
      · rw [if_pos hclose]
      · rw [if_neg hclose]

/-! ### Descriptors -/

section

variable [DecidableEq P]

/-- The world with another file behind a descriptor. -/
def World.withFd (w : World P F O S) (p : P) (fd : Fin nofile) (x : Option F) : World P F O S :=
  { w with
    proc := update w.proc p
      ((w.proc p).map fun q ↦ { q with ofile := update q.ofile fd x }) }

section

omit [DecidableEq F] [DecidableEq S] [Fintype P] [Fintype F] [Fintype O] [Fintype S]

/-- What the change of a descriptor does. -/
theorem setFd_spec (w : World P F O S) (p : P) (fd : Fin nofile) (x : Option F) :
    Ensures (setFd p fd x) w fun _ w' ↦ w' = w.withFd p fd x := by
  unfold setFd setProc
  rw [ensures_modify]
  rfl

/-- One descriptor changes. -/
theorem fdFile_withFd {p : P} (hp : w.proc p ≠ none) (fd : Fin nofile) (x : Option F) :
    (w.withFd p fd x).fdFile = update w.fdFile (p, fd) x := by
  obtain ⟨q, hq⟩ := Option.ne_none_iff_exists'.mp hp
  ext ⟨p', fd'⟩ : 1
  unfold World.fdFile World.withFd
  dsimp only
  by_cases hpp : p' = p
  · subst hpp
    rw [update_self, hq]
    by_cases hfd : fd' = fd
    · subst hfd
      rw [update_self]
      exact update_self fd' x q.ofile
    · rw [update_of_ne (by simpa using hfd), hq]
      exact update_of_ne hfd x q.ofile
  · rw [update_of_ne hpp, update_of_ne (by simp [hpp])]

private theorem cwdEnt_withFd (w : World P F O S) (p : P) (fd : Fin nofile) (x : Option F) :
    (w.withFd p fd x).cwdEnt = w.cwdEnt := by
  ext p' : 1
  unfold World.cwdEnt World.withFd
  dsimp only
  by_cases hpp : p' = p
  · subst hpp
    rw [update_self, Option.map_map]
    rfl
  · rw [update_of_ne hpp]

/-- No process ends. -/
theorem withFd_ne_none {p q : P} (hq : w.proc q ≠ none) (fd : Fin nofile) (x : Option F) :
    (w.withFd p fd x).proc q ≠ none := by
  unfold World.withFd
  dsimp only
  by_cases hqp : q = p
  · subst hqp
    rw [update_self]
    simpa using hq
  · rw [update_of_ne hqp]
    exact hq

end

/-- Another file behind a descriptor. -/
theorem Midway.withFd (h : Midway ok g d w) {p : P} (hp : w.proc p ≠ none) (fd : Fin nofile)
    (x : Option F) (hg : ∀ f, g' f = g f + holds (w.fdFile (p, fd)) f - holds x f) :
    Midway ok g' d (w.withFd p fd x) := by
  refine ⟨?_, h.owed, ?_, h.settled, h.free, ⟨h.openings.held, h.openings.apart,
    h.openings.bound, h.openings.numbered, h.openings.past, h.openings.once, h.openings.unheld,
    h.openings.paired⟩⟩
  · intro f
    have hfile := h.files f
    rw [fdFile_withFd hp, refs_update, hg f]
    change ((w.file f).ref : Int) = _ + refs w.obj f + _
    omega
  · apply h.cache.congr
    intro e
    unfold World.users
    rw [cwdEnt_withFd]
    rfl

/-- `fdalloc` puts the file behind a descriptor that is free. -/
theorem fdalloc_midway {p : P} (f : F) (hp : w.proc p ≠ none) (h : Midway ok g d w) :
    Ensures (fdalloc p f) w fun r w' ↦
      match r with
      | none => w' = w
      | some fd => w' = w.withFd p fd (some f) ∧ w.fdFile (p, fd) = none ∧
          w'.fdFile (p, fd) = some f ∧ Midway ok (fun x ↦ g x - holds (some f) x) d w' := by
  unfold fdalloc
  rw [ensures_bind, ensures_get]
  split
  next => exact ensures_pure.mpr rfl
  next fd hfind =>
    have hfree : w.fdFile (p, fd) = none := by
      have := List.find?_some hfind
      simpa [World.fdFile] using this
    apply (setFd_spec w p fd (some f)).bind
    rintro _ w' rfl
    refine ensures_pure.mpr ⟨rfl, hfree, ?_, ?_⟩
    · rw [fdFile_withFd hp, update_self]
    · apply h.withFd hp
      intro x
      rw [hfree, holds_none]
      omega

end

/-! ### Opening devices -/

omit [DecidableEq S] [Fintype P] [Fintype F] [Fintype O] [Fintype S] in
/-- A file that is not open on a device gets the number of a new opening. It is open afterwards
only if the driver says so. -/
theorem Openings.attempt (h : Openings ok w) {f : F} {x : File S} {ops : FileOps}
    {result : Option (Option Nat)} (hold : (w.file f).type ≠ .device)
    (hnumber : x.opening = w.openings + 1)
    (hheld : x.type = .device → x.opened = true ∧ x.ops = some ops ∧ result = some x.privateData)
    (hfree : x.type ≠ .device → result = none) :
    Openings ok { w with
      file := update w.file f x
      openings := w.openings + 1
      log := .opened (w.openings + 1) ops result :: w.log } := by
  set w' : World P F O S := { w with
    file := update w.file f x
    openings := w.openings + 1
    log := .opened (w.openings + 1) ops result :: w.log } with hw'
  have hother : ∀ f', f' ≠ f → w'.file f' = w.file f' := fun f' hf ↦ update_of_ne hf _ _
  have hself : w'.file f = x := update_self _ _ _
  have hcloses : ∀ n data, .closed n data ∈ w'.log ↔ .closed n data ∈ w.log := by
    intro n data
    change .closed n data ∈ DevCall.opened _ _ _ :: w.log ↔ _
    simp
  have hnew : ∀ f', f' ≠ f → (w'.file f').opening ≠ w.openings + 1 := by
    intro f' hf
    have := h.bound f'
    rw [hother f' hf]
    omega
  refine ⟨?_, ?_, ?_, ?_, ?_, ?_, ?_, h.paired⟩
  · intro f' hdev
    by_cases hf : f' = f
    · subst hf
      rw [hself] at hdev ⊢
      obtain ⟨hopened, hops, rfl⟩ := hheld hdev
      refine ⟨hopened, ops, hops, ?_, fun data hclosed ↦ ?_⟩
      · rw [hnumber]
        exact List.mem_cons_self
      · have := h.past _ _ ((hcloses _ _).mp hclosed)
        omega
    · rw [hother f' hf] at hdev ⊢
      obtain ⟨hopened, ops', hops, hmem, hnot⟩ := h.held f' hdev
      exact ⟨hopened, ops', hops, List.mem_cons_of_mem _ hmem,
        fun data hclosed ↦ hnot data ((hcloses _ _).mp hclosed)⟩
  · intro f1 f2 hne heq
    by_cases hf1 : f1 = f
    · by_contra hf2
      rw [hf1] at heq hf2
      rw [hself, hnumber] at heq
      exact hnew f2 hf2 heq
    · have hf2 : f2 ≠ f := by
        rintro rfl
        rw [hself, hnumber] at heq
        exact hnew f1 hf1 heq.symm
      rw [hother f1 hf1] at hne heq
      rw [hother f2 hf2] at heq
      exact h.apart f1 f2 hne heq
  · intro f'
    change (w'.file f').opening ≤ w.openings + 1
    by_cases hf : f' = f
    · rw [hf, hself, hnumber]
    · rw [hother f' hf]
      exact (h.bound f').trans (Nat.le_succ _)
  · intro n ops' r hmem
    change n ≠ 0 ∧ n ≤ w.openings + 1
    rcases List.mem_cons.mp hmem with heq | hmem
    · cases heq
      exact ⟨Nat.succ_ne_zero _, le_rfl⟩
    · have := h.numbered n ops' r hmem
      omega
  · intro n data hclosed
    exact (h.past n data ((hcloses _ _).mp hclosed)).trans (Nat.le_succ _)
  · intro n ops1 ops2 r1 r2 h1 h2
    rcases List.mem_cons.mp h1 with heq1 | hmem1
    · rcases List.mem_cons.mp h2 with heq2 | hmem2
      · cases heq1
        cases heq2
        exact ⟨rfl, rfl⟩
      · cases heq1
        have := (h.numbered _ _ _ hmem2).2
        omega
    · rcases List.mem_cons.mp h2 with heq2 | hmem2
      · cases heq2
        have := (h.numbered _ _ _ hmem1).2
        omega
      · exact h.once n ops1 ops2 r1 r2 hmem1 hmem2
  · intro n ops' data hmem hclose
    rcases List.mem_cons.mp hmem with heq | hmem
    · right
      refine ⟨f, ?_⟩
      rw [hself]
      cases heq
      refine ⟨?_, hnumber⟩
      by_contra hdev
      cases hfree hdev
    · rcases h.unheld n ops' data hmem hclose with ⟨data', hclosed⟩ | ⟨f', hdev, hn⟩
      · exact .inl ⟨data', (hcloses _ _).mpr hclosed⟩
      · have hf : f' ≠ f := by
          rintro rfl
          exact hold hdev
        refine .inr ⟨f', ?_, ?_⟩
        · rw [hother f' hf]
          exact hdev
        · rw [hother f' hf]
          exact hn

omit [DecidableEq F] [DecidableEq S] [Fintype P] [Fintype F] [Fintype O] [Fintype S] in
/-- A driver is called to close a file that is not open: then the calls are not paired. -/
theorem Openings.stray (h : Openings ok w) {f : F} (hnot : (w.file f).type ≠ .device) (hok : ¬ ok)
    (data : Option Nat) :
    Openings ok { w with log := .closed (w.file f).opening data :: w.log } := by
  have hopens : ∀ n ops r, .opened n ops r ∈ DevCall.closed (w.file f).opening data :: w.log →
      .opened n ops r ∈ w.log := by
    intro n ops r hmem
    simpa using hmem
  refine ⟨?_, h.apart, h.bound, fun n ops r hmem ↦ h.numbered n ops r (hopens n ops r hmem), ?_,
    fun n ops ops' r r' hmem hmem' ↦
      h.once n ops ops' r r' (hopens _ _ _ hmem) (hopens _ _ _ hmem'),
    ?_, fun h ↦ absurd h hok⟩
  · intro f' hdev
    obtain ⟨hopened, ops, hops, hmem, hclosed⟩ := h.held f' hdev
    refine ⟨hopened, ops, hops, List.mem_cons_of_mem _ hmem, fun data' hmem' ↦ ?_⟩
    rcases List.mem_cons.mp hmem' with heq | hmem'
    · have hopening : (w.file f).opening = (w.file f').opening := by
        injection heq with hn _
        exact hn.symm
      have hf := h.apart f' f (h.opening_ne_zero hdev) hopening
      rw [hf] at hnot
      exact hnot hdev
    · exact hclosed data' hmem'
  · intro n data' hmem
    rcases List.mem_cons.mp hmem with heq | hmem
    · cases heq
      exact h.bound f
    · exact h.past n data' hmem
  · intro n ops data' hmem hclose
    rcases h.unheld n ops data' (hopens n ops _ hmem) hclose with ⟨data1, hclosed⟩ | hheld
    · exact .inl ⟨data1, List.mem_cons_of_mem _ hclosed⟩
    · exact .inr hheld

/-- The calls of a driver when a file that it has not opened is closed. -/
def File.closeLog (x : File S) (log : List DevCall) : List DevCall :=
  match x.ops with
  | none => log
  | some ops => if ops.hasClose then .closed x.opening x.privateData :: log else log

/-- An opening of the device node `d` with the slot `x` does no harm: where no driver is found,
the slot has none from before that would be called to close it; and where the driver fails, it is
not one that is called. -/
def OpensCleanly (devices : Nat → Option FileOps) (x : File S) (d : Dirent S) (answer : Answer) :
    Prop :=
  d.isDevice = true → match deviceGet devices (toShort d.firstClus) with
    | none => ∀ ops, x.ops = some ops → ops.hasClose = false
    | some ops => ops.hasOpen = true → answer = .fails → ops.hasClose = false

section

omit [DecidableEq S] [Fintype P] [Fintype F] [Fintype O] [Fintype S]

/-- `fileopen` of a device file. -/
theorem fileopen_spec (devices : Nat → Option FileOps) {f : F} (answer : Answer)
    (hdev : (w.file f).type = .device) :
    Ensures (fileopen devices f answer) w fun r w' ↦
      (deviceGet devices (w.file f).major = none ∧ r = false ∧ w' = w) ∨
      ∃ ops, deviceGet devices (w.file f).major = some ops ∧
        ((∃ data, r = true ∧ w' = { w with
            file := update w.file f { w.file f with
              ops := some ops, privateData := data, opening := w.openings + 1, opened := true }
            openings := w.openings + 1
            log := .opened (w.openings + 1) ops (some data) :: w.log }) ∨
          (ops.hasOpen = true ∧ answer = .fails ∧ r = false ∧ w' = { w with
            file := update w.file f { w.file f with
              ops := some ops, privateData := none, opening := w.openings + 1 }
            openings := w.openings + 1
            log := .opened (w.openings + 1) ops none :: w.log })) := by
  unfold fileopen
  rw [ensures_bind, ensures_get, if_neg (by simp [hdev])]
  split
  next heq => exact ensures_pure.mpr (.inl ⟨heq, rfl, rfl⟩)
  next ops heq =>
    unfold openDevice note Files.setFile
    simp only [ensures_bind, ensures_set, ensures_modify]
    split
    next hfails =>
      refine ensures_pure.mpr (.inr ⟨ops, heq, .inr ?_⟩)
      cases hopen : ops.hasOpen with
      | false => simp [hopen] at hfails
      | true =>
        rw [hopen, if_pos rfl] at hfails
        cases answer with
        | fails => exact ⟨rfl, rfl, rfl, by simp [Answer.data]⟩
        | plain => cases hfails
        | context => cases hfails
    next data hdata =>
      simp only [ensures_bind, ensures_modify, ensures_pure]
      refine .inr ⟨ops, heq, .inl ⟨data, trivial, ?_⟩⟩
      rw [hdata, update_self, update_idem]

/-- `fileclose` of a device file that was not opened. -/
theorem fileclose_failed {f : F} [DecidableEq S] (href : (w.file f).ref = 1)
    (hdev : (w.file f).type = .device)
    (hnot : (w.file f).opened = false) :
    Ensures (fileclose f) w fun _ w' ↦ w' = { w with
      file := update w.file f { w.file f with ref := 0, type := .none }
      log := (w.file f).closeLog w.log } := by
  unfold fileclose
  rw [ensures_bind, ensures_get, if_neg (by omega), if_neg (by omega)]
  unfold Files.setFile closeLast note File.closeLog
  simp only [ensures_bind, ensures_modify]
  rw [hdev, hnot]
  simp only [ensures_bind, ensures_modify, Bool.false_eq_true, if_false]
  cases hops : (w.file f).ops with
  | none => exact ensures_pure.mpr rfl
  | some ops =>
    rw [ensures_doIf, ensures_modify]
    refine ⟨fun hclose ↦ ?_, fun hclose ↦ ?_⟩
    · dsimp only
      rw [if_pos hclose]
    · dsimp only
      rw [if_neg hclose]

end

end Xv6K210.Files
