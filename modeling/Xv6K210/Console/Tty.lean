import Mathlib.Tactic.Common

/-!
# Reading from the terminal

Source `kernel/devsw/console.c:241–347`. A `read` takes bytes from the UART until it
has as many as it wants, or the end of a line, or `^D`. Whatever the sizes of the calls and wherever
they are interrupted, the bytes and the ends of input that they return are a function of the bytes
typed alone.
-/

namespace Xv6K210.Console

/-- The byte of a character. -/
abbrev byte (c : Char) : UInt8 := UInt8.ofNat c.toNat

/-- `C`. -/
def ctrl (c : Char) : UInt8 := byte c - byte '@'

/-- `CONSOLE_MODE_TTY` and `CONSOLE_MODE_RAW`. -/
inductive Mode where
  | tty
  | raw
  deriving DecidableEq, Repr

/-- What a reader uses of `cons`. -/
structure Cons where
  mode : Mode
  esc : Nat
  dropLfAfterCr : Bool
  eofPending : Bool
  deriving DecidableEq, Repr

/-- `console_tty_char`: the byte that it gives to the reader, if any, and what it shows. Only the
build for `qemu` keeps a line feed after a carriage return. -/
def consoleTtyChar (qemu : Bool) (c : UInt8) (s : Cons) : Cons × Option UInt8 × List UInt8 :=
  if s.mode ≠ .tty ∨ c = ctrl 'P' ∨ c = 0 then
    (s, none, [])
  else if !qemu ∧ s.dropLfAfterCr ∧ c = byte '\n' then
    ({ s with dropLfAfterCr := false }, none, [])
  else
    let s := if qemu then s else { s with dropLfAfterCr := c = byte '\r' }
    let c := if c = byte '\r' then byte '\n' else c
    if c = 0x1b then
      ({ s with esc := 1 }, some c, [])
    else if s.esc ≠ 0 then
      let esc := if s.esc = 1 ∧ (c = byte '[' ∨ c = byte 'O') then 2 else 0
      ({ s with esc }, some c, [])
    else
      (s, some c, if (byte ' ' ≤ c ∧ c ≤ byte '~') ∨ c = byte '\n' then [c] else [])

/-- What `uarths_read` returns for one byte, and whether the byte that comes of it can be stored. -/
structure Answer where
  got : Except Int UInt8
  copied : Bool

/-- How far a call has come: it returned, or it waits for the UART. -/
inductive Outcome where
  | returned (ret : Int) (stored : List UInt8)
  | waiting (stored : List UInt8)
  deriving DecidableEq, Repr

section

variable (qemu : Bool)

/-- The loop of `console_tty_read`. -/
def ttyLoop (n : Nat) : List Answer → List UInt8 → Cons → Outcome × Cons × List Answer
  | [], stored, s =>
    if n ≤ stored.length then (.returned stored.length stored, s, []) else (.waiting stored, s, [])
  | a :: as, stored, s =>
    if n ≤ stored.length then (.returned stored.length stored, s, a :: as)
    else
      match a.got with
      | .error r => (.returned (if stored = [] then r else stored.length) stored, s, as)
      | .ok c =>
        let x := consoleTtyChar qemu c s
        match x.2.1 with
        | none => ttyLoop n as stored x.1
        | some c =>
          if c = ctrl 'D' then
            (.returned stored.length stored,
              if stored = [] then x.1 else { x.1 with eofPending := true }, as)
          else if !a.copied then
            (.returned (if stored = [] then -1 else stored.length) stored, x.1, as)
          else
            let stored := stored ++ [c]
            if c = byte '\n' then (.returned stored.length stored, x.1, as)
            else ttyLoop n as stored x.1

/-- `consoleread` in the mode of a terminal. -/
def consoleread (n : Nat) (as : List Answer) (s : Cons) : Outcome × Cons × List Answer :=
  if n = 0 then (.returned 0 [], s, as)
  else if s.eofPending then (.returned 0 [], { s with eofPending := false }, as)
  else ttyLoop qemu n as [] s

/-- Calls one after the other, up to the first that waits. -/
def reads : List Nat → List Answer → Cons → List (Nat × Outcome) × Cons × List Answer
  | [], as, s => ([], s, as)
  | n :: ns, as, s =>
    let x := consoleread qemu n as s
    match x.1 with
    | .waiting stored => ([(n, .waiting stored)], x.2.1, x.2.2)
    | .returned ret stored =>
      let y := reads ns x.2.2 x.2.1
      ((n, .returned ret stored) :: y.1, y.2.1, y.2.2)

/-! ### What the reader sees -/

/-- A byte that is read, or the end of the input. -/
inductive Mark where
  | data (c : UInt8)
  | eof
  deriving DecidableEq, Repr

/-- A reader that asks for something and gets nothing sees the end of the input. -/
def Outcome.marks (n : Nat) : Outcome → List Mark
  | .returned ret stored => stored.map .data ++ if n ≠ 0 ∧ ret = 0 then [.eof] else []
  | .waiting stored => stored.map .data

/-- The end of the input that is still to be reported. -/
def Cons.pending (s : Cons) : List Mark := if s.eofPending then [.eof] else []

/-- What the answers of the UART stand for, after a carriage return or not: `^P`, zeros and the line
feed after a carriage return are left out, and so is a byte that cannot be stored. -/
def cooked : Bool → List Answer → List Mark
  | _, [] => []
  | afterCr, a :: as =>
    match a.got with
    | .error _ => cooked afterCr as
    | .ok c =>
      if c = ctrl 'P' ∨ c = 0 then cooked afterCr as
      else if !qemu ∧ afterCr ∧ c = byte '\n' then cooked false as
      else
        (if c = ctrl 'D' then [.eof]
          else if !a.copied then []
          else [.data (if c = byte '\r' then byte '\n' else c)]) ++
        cooked (if qemu then afterCr else c = byte '\r') as

/-- What is still to be read. -/
def Cons.rest (s : Cons) (as : List Answer) : List Mark :=
  s.pending ++ cooked qemu s.dropLfAfterCr as

end

/-! ### One byte -/

variable {qemu : Bool}

/-- The end of `console_tty_char`, on the byte `c`, moves in the escape sequence only. -/
private theorem escape_cases (s : Cons) (c : UInt8) :
    let x : Cons × Option UInt8 × List UInt8 :=
      if c = 0x1b then ({ s with esc := 1 }, some c, [])
      else if s.esc ≠ 0 then
        ({ s with esc := if s.esc = 1 ∧ (c = byte '[' ∨ c = byte 'O') then 2 else 0 }, some c, [])
      else (s, some c, if (byte ' ' ≤ c ∧ c ≤ byte '~') ∨ c = byte '\n' then [c] else [])
    x.1.mode = s.mode ∧ x.1.eofPending = s.eofPending ∧ x.1.dropLfAfterCr = s.dropLfAfterCr ∧
      x.2.1 = some c := by
  intro x
  by_cases hesc : c = 0x1b
  · have hx : x = _ := if_pos hesc
    rw [hx]
    exact ⟨rfl, rfl, rfl, rfl⟩
  · by_cases hin : s.esc ≠ 0
    · have hx : x = _ := (if_neg hesc).trans (if_pos hin)
      rw [hx]
      exact ⟨rfl, rfl, rfl, rfl⟩
    · have hx : x = _ := (if_neg hesc).trans (if_neg hin)
      rw [hx]
      exact ⟨rfl, rfl, rfl, rfl⟩

/-- What `console_tty_char` does with a byte: it passes it over, it drops the line feed after a
carriage return, or it gives it to the reader. -/
theorem consoleTtyChar_cases (c : UInt8) {s : Cons} (hmode : s.mode = .tty) :
    (consoleTtyChar qemu c s).1.mode = .tty ∧
    (consoleTtyChar qemu c s).1.eofPending = s.eofPending ∧
    ((c = ctrl 'P' ∨ c = 0) ∧ (consoleTtyChar qemu c s).2.1 = none ∧
        (consoleTtyChar qemu c s).1.dropLfAfterCr = s.dropLfAfterCr ∨
      ¬ (c = ctrl 'P' ∨ c = 0) ∧ (!qemu ∧ s.dropLfAfterCr ∧ c = byte '\n') ∧
        (consoleTtyChar qemu c s).2.1 = none ∧
        (consoleTtyChar qemu c s).1.dropLfAfterCr = false ∨
      ¬ (c = ctrl 'P' ∨ c = 0) ∧ ¬ (!qemu ∧ s.dropLfAfterCr ∧ c = byte '\n') ∧
        (consoleTtyChar qemu c s).2.1 = some (if c = byte '\r' then byte '\n' else c) ∧
        (consoleTtyChar qemu c s).1.dropLfAfterCr =
          if qemu then s.dropLfAfterCr else c = byte '\r') := by
  unfold consoleTtyChar
  by_cases hskip : c = ctrl 'P' ∨ c = 0
  · rw [if_pos (.inr hskip)]
    exact ⟨hmode, rfl, .inl ⟨hskip, rfl, rfl⟩⟩
  · have hpass : ¬ (s.mode ≠ .tty ∨ c = ctrl 'P' ∨ c = 0) := by
      rintro (hm | hc)
      · exact hm hmode
      · exact hskip hc
    rw [if_neg hpass]
    by_cases hdrop : !qemu ∧ s.dropLfAfterCr ∧ c = byte '\n'
    · rw [if_pos hdrop]
      exact ⟨hmode, rfl, .inr (.inl ⟨hskip, hdrop, rfl, rfl⟩)⟩
    · rw [if_neg hdrop]
      obtain ⟨hmode', heof, hlf, hgot⟩ := escape_cases
        (if qemu then s else { s with dropLfAfterCr := c = byte '\r' })
        (if c = byte '\r' then byte '\n' else c)
      refine ⟨hmode'.trans ?_, heof.trans ?_, .inr (.inr ⟨hskip, hdrop, hgot, hlf.trans ?_⟩)⟩
      · cases qemu with
        | true => exact hmode
        | false => exact hmode
      · cases qemu with
        | true => rfl
        | false => rfl
      · cases qemu with
        | true => rfl
        | false => rfl

/-- A byte that stands for the end of the input is not changed. -/
theorem eq_ctrl_of_plain (c : UInt8) :
    (if c = byte '\r' then byte '\n' else c) = ctrl 'D' ↔ c = ctrl 'D' := by
  split_ifs with hr
  · rw [hr]
    decide
  · rfl

/-! ### One call -/

private theorem Outcome.marks_returned {n : Nat} {stored : List UInt8} (h : stored ≠ [] ∨ n = 0) :
    (Outcome.returned stored.length stored).marks n = stored.map .data := by
  have hret : ¬ (n ≠ 0 ∧ (stored.length : Int) = 0) := by
    rintro ⟨hn, hlen⟩
    have hnil : stored = [] := List.length_eq_zero_iff.mp (Int.ofNat_eq_zero.mp hlen)
    exact h.elim (fun hne ↦ hne hnil) hn
  rw [Outcome.marks, if_neg hret, List.append_nil]

private theorem Cons.rest_of_not_pending {s : Cons} (h : s.eofPending = false) (as : List Answer) :
    s.rest qemu as = cooked qemu s.dropLfAfterCr as := by
  rw [Cons.rest, Cons.pending, h]
  rfl

/-- A call has read the first of these marks and leaves the rest of them. -/
structure Reads (qemu : Bool) (n : Nat) (as : List Answer) (total : List Mark)
    (x : Outcome × Cons × List Answer) : Prop where
  mode : x.2.1.mode = .tty
  suffix : x.2.2 <:+ as
  waits : ∀ stored, x.1 = .waiting stored → x.2.2 = []
  total : x.1.marks n ++ x.2.1.rest qemu x.2.2 = total

/-- The loop gives up without having stored anything, or returns what it has stored. -/
theorem Reads.stopped {n : Nat} {as : List Answer} {s : Cons} (hmode : s.mode = .tty)
    (hpending : s.eofPending = false) {stored : List UInt8} {r : Int} (hr : r < 0) :
    Reads qemu n as (stored.map .data ++ cooked qemu s.dropLfAfterCr as)
      (.returned (if stored = [] then r else stored.length) stored, s, as) := by
  refine ⟨hmode, List.suffix_refl _, by rintro _ ⟨⟩, ?_⟩
  change Outcome.marks n _ ++ s.rest qemu as = _
  rw [Cons.rest_of_not_pending hpending]
  congr 1
  by_cases hnil : stored = []
  · have hret : ¬ (n ≠ 0 ∧ r = 0) := by omega
    rw [if_pos hnil, Outcome.marks, if_neg hret, List.append_nil]
  · rw [if_neg hnil, Outcome.marks_returned (.inl hnil)]

/-- The loop ends at the end of the input. -/
theorem Reads.ended {n : Nat} (hn : n ≠ 0) {as : List Answer} {s : Cons} (hmode : s.mode = .tty)
    (hpending : s.eofPending = false) (stored : List UInt8) :
    Reads qemu n as (stored.map .data ++ (.eof :: cooked qemu s.dropLfAfterCr as))
      (.returned stored.length stored,
        if stored = [] then s else { s with eofPending := true }, as) := by
  by_cases hnil : stored = []
  · rw [if_pos hnil]
    refine ⟨hmode, List.suffix_refl _, by rintro _ ⟨⟩, ?_⟩
    change Outcome.marks n _ ++ s.rest qemu as = _
    rw [Cons.rest_of_not_pending hpending, hnil, Outcome.marks, if_pos ⟨hn, rfl⟩]
    rfl
  · rw [if_neg hnil]
    refine ⟨hmode, List.suffix_refl _, by rintro _ ⟨⟩, ?_⟩
    change Outcome.marks n _ ++ Cons.rest qemu _ as = _
    rw [Outcome.marks_returned (.inl hnil)]
    rfl

/-- The loop ends with all that is wanted. -/
theorem Reads.full {n : Nat} (hn : n ≠ 0) {as : List Answer} {s : Cons} (hmode : s.mode = .tty)
    (hpending : s.eofPending = false) {stored : List UInt8} (hlen : n ≤ stored.length) :
    Reads qemu n as (stored.map .data ++ cooked qemu s.dropLfAfterCr as)
      (.returned stored.length stored, s, as) := by
  have hne : stored ≠ [] := by
    rintro rfl
    exact hn (Nat.le_zero.mp hlen)
  refine ⟨hmode, List.suffix_refl _, by rintro _ ⟨⟩, ?_⟩
  rw [Outcome.marks_returned (.inl hne), Cons.rest_of_not_pending hpending]

/-- The loop ends with a line feed. -/
theorem Reads.line {n : Nat} {as : List Answer} {s : Cons} (hmode : s.mode = .tty)
    (hpending : s.eofPending = false) (stored : List UInt8) (c : UInt8) :
    Reads qemu n as ((stored ++ [c]).map .data ++ cooked qemu s.dropLfAfterCr as)
      (.returned (stored ++ [c]).length (stored ++ [c]), s, as) := by
  refine ⟨hmode, List.suffix_refl _, by rintro _ ⟨⟩, ?_⟩
  rw [Outcome.marks_returned (.inl (by simp)), Cons.rest_of_not_pending hpending]

/-- More of the answers are used up. -/
theorem Reads.cons {n : Nat} {a : Answer} {as : List Answer} {total : List Mark}
    {x : Outcome × Cons × List Answer} (h : Reads qemu n as total x) :
    Reads qemu n (a :: as) total x :=
  { h with suffix := h.suffix.trans (List.suffix_cons a as) }

/-- The loop reads what its bytes and the answers stand for, and leaves the rest. -/
theorem ttyLoop_reads {n : Nat} (hn : n ≠ 0) {as : List Answer}
    (hint : ∀ a ∈ as, ∀ r, a.got = .error r → r < 0) {stored : List UInt8} {s : Cons}
    (hmode : s.mode = .tty) (hpending : s.eofPending = false) :
    Reads qemu n as (stored.map .data ++ cooked qemu s.dropLfAfterCr as)
      (ttyLoop qemu n as stored s) := by
  induction as generalizing stored s with
  | nil =>
    rw [ttyLoop]
    split_ifs with hlen
    · exact .full hn hmode hpending hlen
    · refine ⟨hmode, List.suffix_refl _, fun _ _ ↦ rfl, ?_⟩
      rw [Cons.rest_of_not_pending hpending]
      rfl
  | cons a as ih =>
    obtain ⟨got, copied⟩ := a
    rw [ttyLoop]
    by_cases hlen : n ≤ stored.length
    · rw [if_pos hlen]
      exact .full hn hmode hpending hlen
    rw [if_neg hlen]
    cases got with
    | error r => exact (Reads.stopped hmode hpending (hint _ List.mem_cons_self r rfl)).cons
    | ok c =>
      obtain ⟨hmode1, hpending1, hcases⟩ := @consoleTtyChar_cases qemu c s hmode
      have ih1 (stored : List UInt8) := @ih (fun b hb ↦ hint b (List.mem_cons_of_mem _ hb)) stored _
        hmode1 (hpending1.trans hpending)
      rw [cooked]
      dsimp only
      rcases hcases with ⟨hskip, hnone, hdrop⟩ | ⟨hskip, hlf, hnone, hdrop⟩ |
        ⟨hskip, hlf, hsome, hdrop⟩
      · rw [hnone, if_pos hskip, ← hdrop]
        exact (ih1 stored).cons
      · rw [hnone, if_neg hskip, if_pos hlf, ← hdrop]
        exact (ih1 stored).cons
      · rw [hsome, if_neg hskip, if_neg hlf, ← hdrop]
        dsimp only
        by_cases heof : c = ctrl 'D'
        · rw [if_pos ((eq_ctrl_of_plain c).mpr heof), if_pos heof]
          exact (Reads.ended hn hmode1 (hpending1.trans hpending) stored).cons
        rw [if_neg (mt (eq_ctrl_of_plain c).mp heof), if_neg heof]
        cases copied with
        | false => exact (Reads.stopped hmode1 (hpending1.trans hpending) (by decide)).cons
        | true =>
          generalize (if c = byte '\r' then byte '\n' else c) = d
          have hpush : ∀ l, stored.map Mark.data ++ ([Mark.data d] ++ l) =
              (stored ++ [d]).map Mark.data ++ l := by
            intro l
            rw [List.map_append, List.append_assoc]
            rfl
          rw [if_neg (by decide), if_neg (by decide), hpush]
          split_ifs with hline
          · exact (Reads.line hmode1 (hpending1.trans hpending) stored d).cons
          · exact (ih1 (stored ++ [d])).cons

/-- A call reads what is to be read, and leaves the rest. -/
theorem consoleread_reads (n : Nat) {as : List Answer}
    (hint : ∀ a ∈ as, ∀ r, a.got = .error r → r < 0) {s : Cons} (hmode : s.mode = .tty) :
    Reads qemu n as (s.rest qemu as) (consoleread qemu n as s) := by
  unfold consoleread
  by_cases hn : n = 0
  · rw [if_pos hn]
    refine ⟨hmode, List.suffix_refl _, by rintro _ ⟨⟩, ?_⟩
    rw [hn]
    rfl
  rw [if_neg hn]
  by_cases hpending : s.eofPending
  · rw [if_pos hpending]
    refine ⟨hmode, List.suffix_refl _, by rintro _ ⟨⟩, ?_⟩
    rw [Outcome.marks, if_pos ⟨hn, rfl⟩, Cons.rest, Cons.rest, Cons.pending, Cons.pending,
      if_pos hpending]
    rfl
  · rw [if_neg hpending, Cons.rest_of_not_pending (by simpa using hpending)]
    exact @ttyLoop_reads qemu n hn as hint [] s hmode (by simpa using hpending)

/-! ### Many calls -/

/-- Whatever the sizes of the calls are and however they are interrupted, what they return and leave
together stands for what was pending and what the UART gave: no byte is lost, made or moved, and the
end of the input is reported once for each `^D`. -/
theorem reads_cooked (ns : List Nat) {as : List Answer}
    (hint : ∀ a ∈ as, ∀ r, a.got = .error r → r < 0) {s : Cons} (hmode : s.mode = .tty) :
    ((reads qemu ns as s).1.flatMap fun x ↦ x.2.marks x.1) ++
      (reads qemu ns as s).2.1.rest qemu (reads qemu ns as s).2.2 = s.rest qemu as := by
  induction ns generalizing as s with
  | nil => rfl
  | cons n ns ih =>
    have h : Reads qemu n as (s.rest qemu as) (consoleread qemu n as s) :=
      consoleread_reads n hint hmode
    rw [reads]
    cases hx : (consoleread qemu n as s).1 with
    | waiting stored =>
      have htotal := h.total
      rw [hx] at htotal
      simpa using htotal
    | returned ret stored =>
      have htotal := h.total
      rw [hx] at htotal
      rw [← htotal, ← ih (fun a ha ↦ hint a (h.suffix.subset ha)) h.mode, List.flatMap_cons,
        List.append_assoc]

/-- Two lines and the end of the input, read three bytes at a time. -/
theorem reads_cooked_small :
    ((reads false [3, 3, 3, 3, 3]
        ([97, 98, 13, 10, 99, 100, 101, 102, 4].map fun c ↦ ⟨.ok c, true⟩)
        ⟨.tty, 0, false, false⟩).1.flatMap fun x ↦ x.2.marks x.1) =
      [.data 97, .data 98, .data 10, .data 99, .data 100, .data 101, .data 102, .eof] := by
  have h := @reads_cooked false [3, 3, 3, 3, 3]
    ([97, 98, 13, 10, 99, 100, 101, 102, 4].map fun c ↦ ⟨.ok c, true⟩) (by simp)
    ⟨.tty, 0, false, false⟩ rfl
  exact (List.append_nil _).symm.trans h

end Xv6K210.Console
