import Mathlib.Logic.Function.Basic
import Xv6K210.Shell.Grammar

/-!
# The descriptors of the programs that the shell runs

Source `user/sh/sh.c:58–133, 376–382` and `kernel/syscall/sysfile.c:36–106, 327–357`. The kernel
gives out the lowest free descriptor; on this the shell relies when it closes a descriptor and opens
a file or duplicates the end of a pipe in its place. Every program gets the descriptors that the
command denotes and no end of a pipe besides.
-/

namespace Xv6K210.Shell

open Function

/-! ### Descriptors -/

/-- `NOFILE`. -/
def nofile : Nat := 16

/-- A pipe is named by the place of its command: the turns on the way from the root. -/
abbrev Place : Type := List Bool

/-- What a descriptor refers to. -/
inductive Open where
  | given (n : Nat)
  | console
  | file (path : List UInt8) (mode : Nat)
  | readEnd (pipe : Place)
  | writeEnd (pipe : Place)
  deriving DecidableEq, Repr

/-- The descriptors of a process. -/
abbrev Fds : Type := Nat → Option Open

/-- `fdalloc`: the lowest free descriptor. -/
def fdalloc (fds : Fds) (x : Open) : Option (Nat × Fds) :=
  ((List.range nofile).find? fun fd ↦ (fds fd).isNone).map fun fd ↦
    (fd, update fds fd (some x))

/-- `close`. -/
def close (fds : Fds) (fd : Nat) : Fds := if fd < nofile then update fds fd none else fds

/-- `dup`, which gives nothing for a descriptor that is not open. -/
def dup (fds : Fds) (fd : Nat) : Option (Nat × Fds) :=
  if fd < nofile then (fds fd).bind (fdalloc fds) else none

/-- `dup`, when its result is not looked at. -/
def dup' (fds : Fds) (fd : Nat) : Fds := ((dup fds fd).map Prod.snd).getD fds

/-- `pipe`: two descriptors, or none. -/
def pipe (fds : Fds) (k : Place) : Option (Nat × Nat × Fds) :=
  (fdalloc fds (.readEnd k)).bind fun x ↦
    (fdalloc x.2 (.writeEnd k)).map fun y ↦ (x.1, y.1, y.2)

/-! ### The shell -/

/-- The loop of `main` that opens the console until three descriptors are open, for a number of
turns. `opens` tells whether the file is found, turn for turn; it is looked for in the current
directory. -/
def openConsole (opens : Nat → Bool) : Nat → Fds → Option Fds
  | 0, _ => none
  | turns + 1, fds =>
    match if opens turns then fdalloc fds .console else none with
    | none => some fds
    | some (fd, fds) => if 3 ≤ fd then some (close fds fd) else openConsole opens turns fds

/-- Which calls succeed: `open`, `pipe` and the first and the second `fork` for a command, by its
place. -/
structure Outcomes where
  opens : Place → Bool
  pipes : Place → Bool
  forks : Bool → Place → Bool

/-- A program that is executed, with its arguments and its descriptors. -/
structure Program where
  argv : List (List UInt8)
  fds : Fds

/-- `runcmd`: the programs that the process and its children execute. A process that gives up
executes no more of them. -/
def runcmd (o : Outcomes) : Cmd (List UInt8) → Place → Fds → List Program
  | .execcmd argv, _, fds => if argv = [] then [] else [⟨argv, fds⟩]
  | .redircmd cmd file mode fd, k, fds =>
    if o.opens k then
      match fdalloc (close fds fd) (.file file mode) with
      | none => []
      | some (_, fds) => runcmd o cmd (false :: k) fds
    else []
  | .listcmd left right, k, fds =>
    if o.forks false k then runcmd o left (false :: k) fds ++ runcmd o right (true :: k) fds else []
  | .pipecmd left right, k, fds =>
    match if o.pipes k then pipe fds k else none with
    | none => []
    | some (p0, p1, fds) =>
      if o.forks false k then
        runcmd o left (false :: k) (close (close (dup' (close fds 1) p1) p0) p1) ++
        if o.forks true k then
          runcmd o right (true :: k) (close (close (dup' (close fds 0) p0) p0) p1)
        else []
      else []
  | .backcmd cmd, k, fds => if o.forks false k then runcmd o cmd (false :: k) fds else []

/-! ### What a command denotes -/

/-- The descriptors of the programs of a tree, given those of the shell: a redirection replaces the
standard input or output, and a pipe takes the place of the output on its left and of the input on
its right. -/
def Tree.denotes : Tree → Place → Fds → List Program
  | .exec words, _, fds => if words = [] then [] else [⟨words.map Word.chars, fds⟩]
  | .redir tree mode file, k, fds =>
    tree.denotes (false :: k) (update fds mode.fd (some (.file file.chars mode.flags)))
  | .pipe left right, k, fds =>
    left.denotes (false :: k) (update fds 1 (some (.writeEnd k))) ++
      right.denotes (true :: k) (update fds 0 (some (.readEnd k)))
  | .list left right, k, fds => left.denotes (false :: k) fds ++ right.denotes (true :: k) fds
  | .back tree, k, fds => tree.denotes (false :: k) fds

/-- The standard descriptors are open. -/
def Standard (fds : Fds) : Prop := ∀ fd < 3, fds fd ≠ none

/-- Opening one more descriptor keeps 0, 1 and 2 open. -/
theorem Standard.put {fds : Fds} (h : Standard fds) (fd : Nat) (x : Open) :
    Standard (update fds fd (some x)) := by
  intro fd' hfd'
  by_cases heq : fd' = fd
  · rw [heq, update_self]
    exact Option.some_ne_none x
  · rw [update_of_ne heq]
    exact h fd' hfd'

private theorem fdalloc_eq_some {fds fds' : Fds} {x : Open} {fd : Nat}
    (h : fdalloc fds x = some (fd, fds')) :
    fd < nofile ∧ fds fd = none ∧ (∀ i < fd, fds i ≠ none) ∧
      fds' = update fds fd (some x) := by
  obtain ⟨i, hi, heq⟩ := Option.map_eq_some_iff.mp h
  obtain ⟨rfl, rfl⟩ := Prod.mk.inj heq
  obtain ⟨hnone, hlt, hlow⟩ := List.find?_range_eq_some.mp hi
  refine ⟨List.mem_range.mp hlt, Option.isNone_iff_eq_none.mp hnone, fun j hj hfree ↦ ?_, rfl⟩
  have hopen := hlow j hj
  rw [hfree] at hopen
  cases hopen

/-- A free descriptor below which none is free is the one that is given out. -/
theorem fdalloc_eq {fds : Fds} (x : Open) {fd : Nat} (hfd : fd < nofile) (hnone : fds fd = none)
    (hlow : ∀ i < fd, fds i ≠ none) :
    fdalloc fds x = some (fd, update fds fd (some x)) := by
  have hfind : ((List.range nofile).find? fun fd ↦ (fds fd).isNone) = some fd := by
    refine List.find?_range_eq_some.mpr ⟨Option.isNone_iff_eq_none.mpr hnone,
      List.mem_range.mpr hfd, fun j hj ↦ ?_⟩
    rw [Bool.not_eq_true', Option.isNone_eq_false_iff, ← Option.ne_none_iff_isSome]
    exact hlow j hj
  rw [fdalloc, hfind]
  rfl

/-- A standard descriptor that is closed is given out next. -/
theorem fdalloc_close {fds : Fds} (h : Standard fds) {fd : Nat} (hfd : fd < 3) (x : Open) :
    fdalloc (close fds fd) x = some (fd, update fds fd (some x)) := by
  have hlt : fd < nofile := Nat.lt_trans hfd (by decide)
  rw [close, if_pos hlt, fdalloc_eq x hlt (update_self ..), update_idem]
  intro i hi
  rw [update_of_ne (Nat.ne_of_lt hi)]
  exact h i (Nat.lt_trans hi hfd)

/-- A descriptor is duplicated in the place of a standard one. -/
theorem dup'_close {fds : Fds} (h : Standard fds) {fd p : Nat} {x : Open} (hfd : fd < 3)
    (hp : p < nofile) (hne : p ≠ fd) (hx : fds p = some x) :
    dup' (close fds fd) p = update fds fd (some x) := by
  have hlt : fd < nofile := Nat.lt_trans hfd (by decide)
  have hopen : close fds fd p = some x := by
    rw [close, if_pos hlt, update_of_ne hne, hx]
  rw [dup', dup, if_pos hp, hopen, Option.bind_some, fdalloc_close h hfd]
  rfl

/-- A pipe takes two free descriptors that are not standard ones. -/
theorem pipe_eq_some {fds fds' : Fds} (h : Standard fds) {k : Place} {p0 p1 : Nat}
    (hpipe : pipe fds k = some (p0, p1, fds')) :
    (3 ≤ p0 ∧ p0 < nofile ∧ fds p0 = none) ∧ (3 ≤ p1 ∧ p1 < nofile ∧ fds p1 = none) ∧ p0 ≠ p1 ∧
      fds' = update (update fds p0 (some (.readEnd k))) p1
        (some (.writeEnd k)) := by
  obtain ⟨⟨q0, fds1⟩, h0, hrest⟩ := Option.bind_eq_some_iff.mp hpipe
  obtain ⟨⟨q1, fds2⟩, h1, heq⟩ := Option.map_eq_some_iff.mp hrest
  obtain ⟨rfl, rfl, rfl⟩ : q0 = p0 ∧ q1 = p1 ∧ fds2 = fds' := by simpa using heq
  obtain ⟨hlt0, hnone0, -, rfl⟩ := fdalloc_eq_some h0
  obtain ⟨hlt1, hnone1, -, rfl⟩ := fdalloc_eq_some h1
  dsimp only at hnone1
  have hne : q0 ≠ q1 := by
    rintro rfl
    rw [update_self] at hnone1
    cases hnone1
  rw [update_of_ne hne.symm] at hnone1
  refine ⟨⟨?_, hlt0, hnone0⟩, ⟨?_, hlt1, hnone1⟩, hne, rfl⟩
  · exact Nat.le_of_not_lt fun hlt ↦ h q0 hlt hnone0
  · exact Nat.le_of_not_lt fun hlt ↦ h q1 hlt hnone1

/-- The end of a pipe is put in the place of a standard descriptor, and its two descriptors are
closed. -/
theorem close_ends {fds : Fds} {k : Place} {p0 p1 fd : Nat} {x : Open} (hfd : fd < 3)
    (h0 : 3 ≤ p0 ∧ p0 < nofile ∧ fds p0 = none) (h1 : 3 ≤ p1 ∧ p1 < nofile ∧ fds p1 = none) :
    close (close (update (update (update fds p0 (some (.readEnd k))) p1
      (some (.writeEnd k))) fd (some x)) p0) p1 = update fds fd (some x) := by
  funext i
  rw [close, if_pos h1.2.1, close, if_pos h0.2.1]
  by_cases hi1 : i = p1
  · rw [hi1, update_self, update_of_ne (by omega), h1.2.2]
  rw [update_of_ne hi1]
  by_cases hi0 : i = p0
  · rw [hi0, update_self, update_of_ne (by omega), h0.2.2]
  rw [update_of_ne hi0]
  by_cases hi : i = fd
  · rw [hi, update_self, update_self]
  · rw [update_of_ne hi, update_of_ne hi, update_of_ne hi1,
      update_of_ne hi0]

/-- The descriptors of the left and of the right side of a pipe. -/
theorem pipe_sides {fds fds' : Fds} (h : Standard fds) {k : Place} {p0 p1 : Nat}
    (hpipe : pipe fds k = some (p0, p1, fds')) :
    close (close (dup' (close fds' 1) p1) p0) p1 =
      update fds 1 (some (.writeEnd k)) ∧
    close (close (dup' (close fds' 0) p0) p0) p1 =
      update fds 0 (some (.readEnd k)) := by
  obtain ⟨h0, h1, hne, rfl⟩ := pipe_eq_some h hpipe
  have hstd := (h.put p0 (.readEnd k)).put p1 (.writeEnd k)
  rw [dup'_close (x := .writeEnd k) hstd (by decide) h1.2.1 (by omega) (update_self ..),
    dup'_close (x := .readEnd k) hstd (by decide) h0.2.1 (by omega)
      ((update_of_ne hne _ _).trans (update_self ..))]
  exact ⟨close_ends (by decide) h0 h1, close_ends (by decide) h0 h1⟩

/-! ### The programs -/

private theorem Mode.fd_lt (mode : Mode) : mode.fd < 3 := by
  cases mode <;> decide

/-- Whatever calls fail, every program that the shell executes for a command has the descriptors
that the command denotes, no more and no others. -/
theorem runcmd_denotes (o : Outcomes) (tree : Tree) {fds : Fds} (h : Standard fds) (k : Place) :
    (runcmd o tree.cmd k fds).Sublist (tree.denotes k fds) := by
  induction tree generalizing fds k with
  | exec words =>
    cases words with
    | nil => exact List.nil_sublist _
    | cons w words => exact List.Sublist.refl _
  | redir tree mode file ih =>
    rw [Tree.cmd, runcmd, Tree.denotes, fdalloc_close h mode.fd_lt]
    split_ifs
    · exact ih (h.put _ _) _
    · exact List.nil_sublist _
  | pipe left right ihl ihr =>
    rw [Tree.cmd, runcmd, Tree.denotes]
    cases hpipe : if o.pipes k then pipe fds k else none with
    | none => exact List.nil_sublist _
    | some x =>
      obtain ⟨p0, p1, fds'⟩ := x
      have hmade : pipe fds k = some (p0, p1, fds') := by
        split_ifs at hpipe
        exact hpipe
      have hsides := pipe_sides h hmade
      dsimp only
      rw [hsides.1, hsides.2]
      split_ifs
      · exact (ihl (h.put _ _) _).append (ihr (h.put _ _) _)
      · exact (ihl (h.put _ _) _).append (List.nil_sublist _)
      · exact List.nil_sublist _
  | list left right ihl ihr =>
    rw [Tree.cmd, runcmd, Tree.denotes]
    split_ifs
    · exact (ihl h _).append (ihr h _)
    · exact List.nil_sublist _
  | back tree ih =>
    rw [Tree.cmd, runcmd, Tree.denotes]
    split_ifs
    · exact ih h _
    · exact List.nil_sublist _

/-- All calls succeed. -/
structure Outcomes.Succeed (o : Outcomes) : Prop where
  opens : ∀ k, o.opens k = true
  pipes : ∀ k, o.pipes k = true
  forks : ∀ second k, o.forks second k = true

/-- There is room for a pipe. -/
def Roomy (fds : Fds) : Prop :=
    ∃ p q, p ≠ q ∧ (p < nofile ∧ fds p = none) ∧ q < nofile ∧ fds q = none

/-- Replacing one of the first three leaves as much room. -/
theorem Roomy.put {fds : Fds} (hstd : Standard fds) (h : Roomy fds) {fd : Nat} (hfd : fd < 3)
    (x : Open) : Roomy (update fds fd (some x)) := by
  obtain ⟨p, q, hne, ⟨hp, hpfree⟩, hq, hqfree⟩ := h
  have hapart : ∀ {r}, fds r = none → r ≠ fd := by
    rintro r hr rfl
    exact hstd r hfd hr
  exact ⟨p, q, hne, ⟨hp, by rw [update_of_ne (hapart hpfree), hpfree]⟩, hq,
    by rw [update_of_ne (hapart hqfree), hqfree]⟩

private theorem exists_fdalloc {fds : Fds} (x : Open) {fd : Nat} (hfd : fd < nofile)
    (hfree : fds fd = none) :
    ∃ y, fdalloc fds x = some y := by
  rw [← Option.isSome_iff_exists, fdalloc, Option.isSome_map, List.find?_isSome]
  exact ⟨fd, List.mem_range.mpr hfd, Option.isNone_iff_eq_none.mpr hfree⟩

/-- There is room for a pipe. -/
theorem Roomy.pipe {fds : Fds} (h : Roomy fds) (k : Place) : ∃ x, Shell.pipe fds k = some x := by
  obtain ⟨p, q, hne, ⟨hp, hpfree⟩, hq, hqfree⟩ := h
  obtain ⟨⟨fd, fds'⟩, hy⟩ := exists_fdalloc (.readEnd k) hp hpfree
  obtain ⟨-, -, -, rfl⟩ := fdalloc_eq_some hy
  have hother : ∃ r, r < nofile ∧ update fds fd (some (.readEnd k)) r = none := by
    by_cases hfd : fd = p
    · exact ⟨q, hq, by rw [update_of_ne (by omega), hqfree]⟩
    · exact ⟨p, hp, by rw [update_of_ne (Ne.symm hfd), hpfree]⟩
  obtain ⟨r, hr, hrfree⟩ := hother
  obtain ⟨z, hz⟩ := exists_fdalloc (.writeEnd k) hr hrfree
  exact ⟨(fd, z.1, z.2), by rw [Shell.pipe, hy, Option.bind_some, hz]; rfl⟩

/-- When nothing fails the shell executes every program of the command. -/
theorem runcmd_complete {o : Outcomes} (ho : o.Succeed) (tree : Tree) {fds : Fds}
    (h : Standard fds) (hroomy : Roomy fds) (k : Place) :
    runcmd o tree.cmd k fds = tree.denotes k fds := by
  induction tree generalizing fds k with
  | exec words =>
    cases words with
    | nil => rfl
    | cons w words => rfl
  | redir tree mode file ih =>
    rw [Tree.cmd, runcmd, Tree.denotes, fdalloc_close h mode.fd_lt, if_pos (ho.opens k)]
    exact ih (h.put _ _) (hroomy.put h mode.fd_lt _) _
  | pipe left right ihl ihr =>
    obtain ⟨⟨p0, p1, fds'⟩, hpipe⟩ := hroomy.pipe k
    have hsides := pipe_sides h hpipe
    rw [Tree.cmd, runcmd, Tree.denotes, if_pos (ho.pipes k), hpipe]
    dsimp only
    rw [hsides.1, hsides.2, if_pos (ho.forks _ _), if_pos (ho.forks _ _),
      ihl (h.put _ _) (hroomy.put h (by decide) _),
      ihr (h.put _ _) (hroomy.put h (by decide) _)]
  | list left right ihl ihr =>
    rw [Tree.cmd, runcmd, Tree.denotes, if_pos (ho.forks _ _), ihl h hroomy, ihr h hroomy]
  | back tree ih => rw [Tree.cmd, runcmd, Tree.denotes, if_pos (ho.forks _ _), ih h hroomy]

/-- What an `open` of the console in a turn gives. -/
theorem openConsole_turn {opens : Nat → Bool} {turns fd : Nat} {fds fds' : Fds}
    (h : (if opens turns then fdalloc fds .console else none) = some (fd, fds')) :
    fd < nofile ∧ fds fd = none ∧ (∀ i < fd, fds i ≠ none) ∧
      fds' = update fds fd (some .console) := by
  split_ifs at h
  exact fdalloc_eq_some h

/-- With the standard descriptors open the loop ends in its first turn, and changes nothing. -/
theorem openConsole_of_standard (opens : Nat → Bool) {fds : Fds} (h : Standard fds) (turns : Nat) :
    openConsole opens (turns + 1) fds = some fds := by
  rw [openConsole]
  cases hx : if opens turns then fdalloc fds .console else none with
  | none => rfl
  | some x =>
    obtain ⟨fd, fds'⟩ := x
    obtain ⟨hlt, hfree, -, rfl⟩ := openConsole_turn hx
    have hfd : 3 ≤ fd := Nat.le_of_not_lt fun hlt ↦ h fd hlt hfree
    dsimp only
    rw [if_pos hfd, close, if_pos hlt, update_idem, ← hfree, update_eq_self]

/-- Four turns that find the console open the standard descriptors. -/
theorem openConsole_opens {opens : Nat → Bool} (hopens : ∀ turn, opens turn = true) {turns n : Nat}
    {fds : Fds} (hlow : ∀ i < n, fds i ≠ none) (hn : n ≤ 3) (hturns : 3 < n + turns) :
    ∃ fds', openConsole opens turns fds = some fds' ∧ Standard fds' := by
  induction turns generalizing n fds with
  | zero => omega
  | succ turns ih =>
    rw [openConsole]
    cases hx : if opens turns then fdalloc fds .console else none with
    | none =>
      refine ⟨fds, rfl, fun fd hfd hfree ↦ ?_⟩
      obtain ⟨y, hy⟩ := exists_fdalloc .console (Nat.lt_trans hfd (by decide)) hfree
      rw [if_pos (hopens turns), hy] at hx
      cases hx
    | some x =>
      obtain ⟨fd, fds'⟩ := x
      obtain ⟨hlt, hfree, hopen, rfl⟩ := openConsole_turn hx
      dsimp only
      split_ifs with hfd
      · refine ⟨_, rfl, fun i hi ↦ ?_⟩
        rw [close, if_pos hlt, update_idem, update_of_ne (by omega)]
        exact hopen i (Nat.lt_of_lt_of_le hi hfd)
      · have hle : n ≤ fd := Nat.le_of_not_lt fun hlt ↦ hlow fd hlt hfree
        refine ih (n := fd + 1) (fun i hi ↦ ?_) (by omega) (by omega)
        by_cases heq : i = fd
        · rw [heq, update_self]
          exact Option.some_ne_none _
        · rw [update_of_ne heq]
          exact hopen i (by omega)

/-- When the shell is started with the standard descriptors open, or finds the console whenever it
looks for it, they are open after its first loop, which leaves descriptors alone that were. Every
program that it executes for a command from then on has exactly the descriptors that the command
denotes, whatever calls fail; and if none fails and there is room for a pipe, every program of the
command is executed. -/
theorem shell_descriptors (opens : Nat → Bool) (fds0 : Fds)
    (h : Standard fds0 ∨ ∀ turn, opens turn = true) :
    ∃ fds, openConsole opens 4 fds0 = some fds ∧ Standard fds ∧ (Standard fds0 → fds = fds0) ∧
      ∀ (o : Outcomes) (tree : Tree),
        (runcmd o tree.cmd [] fds).Sublist (tree.denotes [] fds) ∧
        (o.Succeed → Roomy fds → runcmd o tree.cmd [] fds = tree.denotes [] fds) := by
  have hconsole : ∃ fds, openConsole opens 4 fds0 = some fds ∧ Standard fds := by
    rcases h with hstd | hopens
    · exact ⟨fds0, openConsole_of_standard opens hstd 3, hstd⟩
    · have hlow : ∀ i < 0, fds0 i ≠ none := fun i hi ↦ absurd hi (Nat.not_lt_zero i)
      exact openConsole_opens hopens hlow (by decide) (by decide)
  obtain ⟨fds, hopen, hstd⟩ := hconsole
  refine ⟨fds, hopen, hstd, fun hstd0 ↦ ?_, fun o tree ↦ ⟨runcmd_denotes o tree hstd [],
    fun ho hroomy ↦ runcmd_complete ho tree hstd hroomy []⟩⟩
  rw [openConsole_of_standard opens hstd0] at hopen
  exact (Option.some.inj hopen).symm

/-- A word of one letter. -/
def letter (c : UInt8) (h : plain c = true ∧ c ≠ 0) : Word where
  chars := [c]
  nonempty := List.cons_ne_nil c []
  plain := fun x hx ↦ by rwa [List.mem_singleton.mp hx]

/-- The command `a | b > c`. -/
def pipeToFile : Tree :=
  .pipe (.exec [letter 0x61 (by decide)])
    (.redir (.exec [letter 0x62 (by decide)]) .write (letter 0x63 (by decide)))

/-- The descriptors that `init` leaves to the shell. -/
def initFds : Fds := fun fd ↦ if fd < 3 then some (.given fd) else none

/-- The console is not found, as in the root directory. The left program writes into the pipe, the
right one reads from it and writes into the file, and no other descriptor is open. -/
theorem shell_descriptors_small : ∃ fds, openConsole (fun _ ↦ false) 4 initFds = some fds ∧
    (runcmd ⟨fun _ ↦ true, fun _ ↦ true, fun _ _ ↦ true⟩ pipeToFile.cmd [] fds).map
        (fun p ↦ (p.argv, (List.range nofile).filterMap p.fds)) =
      [([[0x61]], [.given 0, .writeEnd [], .given 2]),
        ([[0x62]], [.readEnd [], .file [0x63] Mode.write.flags, .given 2])] := by
  have hstd : Standard initFds := fun fd hfd ↦ by
    rw [initFds, if_pos hfd]
    exact Option.some_ne_none _
  obtain ⟨fds, hopen, -, hsame, hrun⟩ := shell_descriptors (fun _ ↦ false) initFds (.inl hstd)
  obtain rfl := hsame hstd
  refine ⟨_, hopen, ?_⟩
  rw [(hrun _ pipeToFile).2 ⟨fun _ ↦ rfl, fun _ ↦ rfl, fun _ _ ↦ rfl⟩
    ⟨3, 4, by decide, ⟨by decide, rfl⟩, by decide, rfl⟩]
  decide

end Xv6K210.Shell
