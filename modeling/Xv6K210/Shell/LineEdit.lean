import Mathlib.Tactic.Common

/-!
# Line editing

Source `user/sh/sh.c:140–363`, `getcmd` and the functions that it calls. Every read of a character
is a step, and what is written to the terminal is left out. A write that leaves the buffer ends the
computation.
-/

namespace Xv6K210.Shell

/-- What a read of a character returns. -/
inductive ReadResult where
  | error
  | eof
  | byte (c : UInt8)
  deriving DecidableEq, Repr

/-- A read, whether `SIGINT` came before its end, and the names in the directory, if it can be
opened. -/
structure Read where
  result : ReadResult
  interrupted : Bool
  dir : Option (List (List UInt8))
  deriving DecidableEq, Repr

/-- Which read of `getcmd` is next. -/
inductive Pc where
  | top
  | escape
  | escapeNext (seq : UInt8)
  | bracket
  deriving DecidableEq, Repr

/-- The buffer of `getcmd`, the cursor, the flag of the signal handler, and the value returned. -/
structure Editor where
  buf : List UInt8
  i : Nat
  inputInterrupted : Bool
  pc : Pc
  ret : Option Int
  deriving DecidableEq, Repr

/-- Bytes are written to the buffer, all of them inside. -/
def put (buf : List UInt8) (k : Nat) (bs : List UInt8) : Option (List UInt8) :=
  if k + bs.length ≤ buf.length then some (buf.take k ++ bs ++ buf.drop (k + bs.length)) else none

/-- The start of the word that ends at a place. -/
def wordStart (buf : List UInt8) : Nat → Nat
  | 0 => 0
  | start + 1 => if buf.getD start 0 = 0x20 then start + 1 else wordStart buf start

namespace Editor

/-- `buf[i++] = c`, for some characters. -/
def append (s : Editor) (cs : List UInt8) : Option Editor := do
  let buf ← put s.buf s.i cs
  some { s with buf, i := s.i + cs.length }

/-- `buf[k] = 0`. -/
def terminate (s : Editor) (k : Nat) : Option Editor := do
  let buf ← put s.buf k [0]
  some { s with buf }

/-- `getcmd` returns. -/
def finish (s : Editor) (code : Int) : Editor := { s with ret := some code }

/-- `erase_line`. -/
def eraseLine (s : Editor) : Option Editor := { s with i := 0 }.terminate 0

/-- `load_history`. -/
def loadHistory (nbuf : Nat) (history : List UInt8) (s : Editor) : Option Editor :=
  if history = [] then some s
  else do
    let s ← s.eraseLine
    let len := min history.length (nbuf - 2)
    let s ← s.append (history.take len)
    s.terminate len

/-- The first character of the word before the cursor. -/
def start (s : Editor) : Nat := wordStart s.buf s.i

/-- The word before the cursor. -/
def word (s : Editor) : List UInt8 := (s.buf.drop s.start).take (s.i - s.start)

/-- The name is none of `.` and `..`, and begins with the word before the cursor. -/
def isMatch (s : Editor) (name : List UInt8) : Bool :=
  name ≠ [0x2E] && name ≠ [0x2E, 0x2E] && s.word.isPrefixOf name

/-- The only name that completes the word before the cursor. -/
def completion (s : Editor) (dir : Option (List (List UInt8))) : Option (List UInt8) :=
  match ((dir.getD []).filter s.isMatch).take 32 with
  | [name] => some name
  | _ => none

/-- `complete_word`. -/
def completeWord (s : Editor) (dir : Option (List (List UInt8))) : Option Editor :=
  match s.completion dir with
  | none => some s
  | some name => do
    let s ← { s with i := s.start }.append name
    s.terminate s.i

/-- There is a word before the cursor. -/
def inWord (s : Editor) : Bool := 0 < s.i && s.start < s.i

/-- A character that does not begin a sequence. -/
def char (nbuf : Nat) (s : Editor) (c : UInt8) (dir : Option (List (List UInt8))) :
    Option Editor :=
  if c = 0x0A then do
    let s ← s.append [0x0A]
    let s ← s.terminate s.i
    some (s.finish 0)
  else if c = 0x04 then
    some (if s.i = 0 then s.finish (-1) else s)
  else if c = 0x1B then some { s with pc := .escape }
  else if c = 0x5B then some { s with pc := .bracket }
  else if c = 0x15 then s.eraseLine
  else if c = 0x7F ∨ c = 0x08 then some { s with i := s.i - 1 }
  else if c = 0x09 then
    if s.inWord then s.completeWord dir else some s
  else if s.i < nbuf - 2 then s.append [c]
  else some s

/-- The end of `getcmd` after a signal or an error: the line is empty. -/
def abandon (s : Editor) : Option Editor := do
  let s ← s.terminate 0
  some (s.finish 1)

/-- The first read of a turn of `getcmd`. -/
def turn (nbuf : Nat) (s : Editor) (r : Read) : Option Editor :=
  if s.inputInterrupted then s.abandon
  else
    match r.result with
    | .error => s.abandon
    | .eof => do
      let s ← s.terminate s.i
      some (s.finish (-1))
    | .byte c => s.char nbuf c r.dir

/-- `getcmd` from one read to the next. -/
def step (nbuf : Nat) (history : List UInt8) (s : Editor) (r : Read) : Option Editor :=
  let s := { s with inputInterrupted := s.inputInterrupted || r.interrupted }
  match s.pc, r.result with
  | .top, _ => s.turn nbuf r
  | .escape, .byte c => some { s with pc := .escapeNext c }
  | .escapeNext seq, .byte c =>
    if (seq = 0x5B ∨ seq = 0x4F) ∧ c = 0x41 then { s with pc := .top }.loadHistory nbuf history
    else some { s with pc := .top }
  | .bracket, .byte next =>
    if next = 0x41 then { s with pc := .top }.loadHistory nbuf history
    else if s.i < nbuf - 2 then { s with pc := .top }.append [0x5B, next]
    else some { s with pc := .top }
  | _, _ => some { s with pc := .top }

/-- The state behind `memset`. -/
def init (nbuf : Nat) : Editor where
  buf := List.replicate nbuf 0
  i := 0
  inputInterrupted := false
  pc := .top
  ret := none

/-- The loop of `getcmd`, until it returns or waits for more input. -/
def loop (nbuf : Nat) (history : List UInt8) : List Read → Editor → Option Editor
  | [], s => some s
  | r :: rs, s =>
    if s.ret ≠ none then some s else (s.step nbuf history r).bind (loop nbuf history rs)

end Editor

/-- `getcmd`. -/
def getcmd (nbuf : Nat) (history : List UInt8) (reads : List Read) : Option Editor :=
  Editor.loop nbuf history reads (.init nbuf)

namespace Editor

/-- There is room for what a character adds to the line: a newline behind the line, or the name that
completes the last word. -/
def charFits (nbuf : Nat) (s : Editor) (c : UInt8) (dir : Option (List (List UInt8))) : Bool :=
  if c = 0x0A then s.i + 1 < nbuf
  else if c = 0x09 ∧ s.inWord then
    match s.completion dir with
    | none => true
    | some name => s.start + name.length < nbuf
  else true

/-- There is room for what a read adds to the line. -/
def fits (nbuf : Nat) (s : Editor) (r : Read) : Bool :=
  match s.pc, r.result with
  | .top, .byte c => s.inputInterrupted || r.interrupted || s.charFits nbuf c r.dir
  | _, _ => true

/-- There is room in every turn. -/
def roomy (nbuf : Nat) (history : List UInt8) : List Read → Editor → Bool
  | [], _ => true
  | r :: rs, s =>
    s.ret ≠ none ||
      s.fits nbuf r && ((s.step nbuf history r).all (roomy nbuf history rs))

end Editor

/-! ## Writes -/

/-- A write inside the buffer succeeds, and leaves the bytes behind it. -/
theorem put_of_le {buf : List UInt8} {k : Nat} {bs : List UInt8} (h : k + bs.length ≤ buf.length) :
    ∃ buf', put buf k bs = some buf' ∧ buf'.length = buf.length ∧
      (∀ j < bs.length, buf'[k + j]? = bs[j]?) ∧ ∀ j, k + bs.length ≤ j → buf'[j]? = buf[j]? := by
  have htake : (buf.take k).length = k := List.length_take_of_le (by omega)
  have hfront : (buf.take k ++ bs).length = k + bs.length := by
    rw [List.length_append, htake]
  refine ⟨_, if_pos h, ?_, ?_, ?_⟩
  · rw [List.length_append, hfront, List.length_drop]
    omega
  · intro j hj
    rw [List.getElem?_append_left (by omega), List.getElem?_append_right (by omega), htake,
      Nat.add_sub_cancel_left]
  · intro j hj
    rw [List.getElem?_append_right (by omega), hfront, List.getElem?_drop]
    congr 1
    omega

private theorem put_of_lt {buf : List UInt8} {k : Nat} {bs : List UInt8}
    (h : buf.length < k + bs.length) :
    put buf k bs = none :=
  if_neg (Nat.not_le_of_lt h)

private theorem wordStart_le (buf : List UInt8) (i : Nat) : wordStart buf i ≤ i := by
  induction i with
  | zero => exact Nat.le_refl 0
  | succ start ih =>
    rw [wordStart]
    split
    · exact Nat.le_refl _
    · exact Nat.le_succ_of_le ih

/-! ## What every turn keeps -/

/-- The cursor is in the buffer, and the last byte of the buffer is zero. -/
structure Editing (nbuf : Nat) (s : Editor) : Prop where
  length : s.buf.length = nbuf
  cursor : s.i < nbuf
  last : s.buf[nbuf - 1]? = some 0

/-- What holds between the reads: behind a line that was ended is a zero. -/
structure Kept (nbuf : Nat) (s : Editor) : Prop where
  editing : Editing nbuf s
  line : s.ret = some 0 → s.buf[s.i]? = some 0

/-- The editing goes on. -/
theorem Editing.kept {nbuf : Nat} {s : Editor} (h : Editing nbuf s) (hret : s.ret = none) :
    Kept nbuf s := by
  refine ⟨h, fun hzero ↦ ?_⟩
  rw [hret] at hzero
  cases hzero

namespace Editor

variable {nbuf : Nat} {s : Editor}

private theorem append_editing (h : Editing nbuf s) {cs : List UInt8}
    (hcs : s.i + cs.length < nbuf) :
    ∃ t, s.append cs = some t ∧ Editing nbuf t ∧ t.ret = s.ret ∧ t.i = s.i + cs.length := by
  have hlen := h.length
  have hin : s.i + cs.length ≤ s.buf.length := by omega
  obtain ⟨buf, hput, hbuf, -, hbehind⟩ := put_of_le hin
  refine ⟨{ s with buf, i := s.i + cs.length }, by rw [append, hput]; rfl, ?_, rfl, rfl⟩
  refine ⟨hbuf.trans hlen, hcs, ?_⟩
  exact (hbehind _ (by omega)).trans h.last

private theorem terminate_editing (h : Editing nbuf s) {k : Nat} (hk : k < nbuf) :
    ∃ t, s.terminate k = some t ∧ Editing nbuf t ∧ t.ret = s.ret ∧ t.i = s.i ∧
      t.buf[k]? = some 0 := by
  have hlen := h.length
  have hin : k + [(0 : UInt8)].length ≤ s.buf.length := by
    rw [hlen]
    exact hk
  obtain ⟨buf, hput, hbuf, hat, hbehind⟩ := put_of_le hin
  have hzero : buf[k]? = some 0 := hat 0 (Nat.zero_lt_succ 0)
  refine ⟨{ s with buf }, by rw [terminate, hput]; rfl, ⟨hbuf.trans hlen, h.cursor, ?_⟩, rfl, rfl,
    hzero⟩
  by_cases hlast : k = nbuf - 1
  · rw [← hlast]
    exact hzero
  · have hle : k + [(0 : UInt8)].length ≤ nbuf - 1 := by
      rw [List.length_singleton]
      omega
    exact (hbehind _ hle).trans h.last

private theorem eraseLine_editing (h : Editing nbuf s) :
    ∃ t, s.eraseLine = some t ∧ Editing nbuf t ∧ t.ret = s.ret ∧ t.i = 0 := by
  have hpos : 0 < nbuf := Nat.lt_of_le_of_lt (Nat.zero_le _) h.cursor
  have hs : Editing nbuf { s with i := 0 } := ⟨h.length, hpos, h.last⟩
  obtain ⟨t, ht, hedit, hret, hi, -⟩ := terminate_editing hs hpos
  exact ⟨t, ht, hedit, hret, hi⟩

/-- The history is cut to the buffer. -/
theorem loadHistory_editing (hnbuf : 2 ≤ nbuf) (history : List UInt8) (h : Editing nbuf s) :
    ∃ t, s.loadHistory nbuf history = some t ∧ Editing nbuf t ∧ t.ret = s.ret := by
  unfold loadHistory
  split
  · exact ⟨s, rfl, h, rfl⟩
  · obtain ⟨t, ht, hedit, hret, hi⟩ := eraseLine_editing h
    have hlen : (history.take (min history.length (nbuf - 2))).length =
        min history.length (nbuf - 2) :=
      List.length_take_of_le (Nat.min_le_left _ _)
    have hfits : t.i + (history.take (min history.length (nbuf - 2))).length < nbuf := by
      rw [hi, hlen]
      omega
    obtain ⟨u, hu, hedit, hret', -⟩ := append_editing hedit hfits
    have hend : min history.length (nbuf - 2) < nbuf := by omega
    obtain ⟨v, hv, hedit, hret'', -⟩ := terminate_editing hedit hend
    refine ⟨v, ?_, hedit, hret''.trans (hret'.trans hret)⟩
    exact Option.bind_eq_some_iff.mpr ⟨t, ht, Option.bind_eq_some_iff.mpr ⟨u, hu, hv⟩⟩

/-- A word starts at or before the cursor. -/
theorem start_le (s : Editor) : s.start ≤ s.i := wordStart_le s.buf s.i

/-- A name that fits is completed. -/
theorem completeWord_editing (h : Editing nbuf s) {dir : Option (List (List UInt8))}
    (hfits : ∀ name, s.completion dir = some name → s.start + name.length < nbuf) :
    ∃ t, s.completeWord dir = some t ∧ Editing nbuf t ∧ t.ret = s.ret := by
  unfold completeWord
  cases hname : s.completion dir with
  | none => exact ⟨s, rfl, h, rfl⟩
  | some name =>
    have hs : Editing nbuf { s with i := s.start } :=
      ⟨h.length, Nat.lt_of_le_of_lt s.start_le h.cursor, h.last⟩
    obtain ⟨t, ht, hedit, hret, hi⟩ := append_editing hs (hfits name hname)
    obtain ⟨u, hu, hedit', hret', -⟩ := terminate_editing hedit hedit.cursor
    exact ⟨u, Option.bind_eq_some_iff.mpr ⟨t, ht, hu⟩, hedit', hret'.trans hret⟩

/-- A character for which there is room. -/
theorem char_kept (h : Editing nbuf s) (hret : s.ret = none) {c : UInt8}
    {dir : Option (List (List UInt8))} (hfits : s.charFits nbuf c dir = true) :
    ∃ t, s.char nbuf c dir = some t ∧ Kept nbuf t := by
  unfold char
  unfold charFits at hfits
  by_cases hline : c = 0x0A
  · rw [if_pos hline] at hfits
    have hroom : s.i + [(0x0A : UInt8)].length < nbuf := of_decide_eq_true hfits
    obtain ⟨t, ht, hedit, -, hi⟩ := append_editing h hroom
    obtain ⟨u, hu, hedit', -, hi', hzero⟩ := terminate_editing hedit hedit.cursor
    rw [if_pos hline]
    refine ⟨u.finish 0, ?_, ⟨hedit'.length, hedit'.cursor, hedit'.last⟩, fun _ ↦ ?_⟩
    · exact Option.bind_eq_some_iff.mpr ⟨t, ht, Option.bind_eq_some_iff.mpr ⟨u, hu, rfl⟩⟩
    · change u.buf[u.i]? = some 0
      rw [hi']
      exact hzero
  rw [if_neg hline] at hfits
  rw [if_neg hline]
  by_cases heof : c = 0x04
  · rw [if_pos heof]
    by_cases hzero : s.i = 0
    · rw [if_pos hzero]
      exact ⟨s.finish (-1), rfl, ⟨h.length, h.cursor, h.last⟩, by rintro ⟨⟩⟩
    · rw [if_neg hzero]
      exact ⟨s, rfl, h.kept hret⟩
  rw [if_neg heof]
  by_cases hesc : c = 0x1B
  · rw [if_pos hesc]
    exact ⟨_, rfl, Editing.kept ⟨h.length, h.cursor, h.last⟩ hret⟩
  rw [if_neg hesc]
  by_cases hbracket : c = 0x5B
  · rw [if_pos hbracket]
    exact ⟨_, rfl, Editing.kept ⟨h.length, h.cursor, h.last⟩ hret⟩
  rw [if_neg hbracket]
  by_cases hkill : c = 0x15
  · rw [if_pos hkill]
    obtain ⟨t, ht, hedit, hret', -⟩ := eraseLine_editing h
    exact ⟨t, ht, hedit.kept (hret'.trans hret)⟩
  rw [if_neg hkill]
  by_cases hback : c = 0x7F ∨ c = 0x08
  · have hcursor : s.i - 1 < nbuf := Nat.lt_of_le_of_lt (Nat.sub_le _ _) h.cursor
    rw [if_pos hback]
    exact ⟨_, rfl, Editing.kept ⟨h.length, hcursor, h.last⟩ hret⟩
  rw [if_neg hback]
  by_cases htab : c = 0x09
  · rw [if_pos htab]
    by_cases hword : s.inWord = true
    · rw [if_pos ⟨htab, hword⟩] at hfits
      have hname : ∀ name, s.completion dir = some name → s.start + name.length < nbuf := by
        intro name hname
        rw [hname] at hfits
        exact of_decide_eq_true hfits
      obtain ⟨t, ht, hedit, hret'⟩ := completeWord_editing h hname
      rw [if_pos hword]
      exact ⟨t, ht, hedit.kept (hret'.trans hret)⟩
    · rw [if_neg hword]
      exact ⟨s, rfl, h.kept hret⟩
  rw [if_neg htab]
  by_cases hroom : s.i < nbuf - 2
  · have hone : s.i + [c].length < nbuf := by
      rw [List.length_singleton]
      omega
    obtain ⟨t, ht, hedit, hret', -⟩ := append_editing h hone
    rw [if_pos hroom]
    exact ⟨t, ht, hedit.kept (hret'.trans hret)⟩
  · rw [if_neg hroom]
    exact ⟨s, rfl, h.kept hret⟩

private theorem abandon_kept (h : Editing nbuf s) : ∃ t, s.abandon = some t ∧ Kept nbuf t := by
  have hpos : 0 < nbuf := Nat.lt_of_le_of_lt (Nat.zero_le _) h.cursor
  obtain ⟨t, ht, hedit, -⟩ := terminate_editing h hpos
  exact ⟨t.finish 1, Option.bind_eq_some_iff.mpr ⟨t, ht, rfl⟩,
    ⟨hedit.length, hedit.cursor, hedit.last⟩, by rintro ⟨⟩⟩

private theorem turn_kept (h : Editing nbuf s) (hret : s.ret = none) {r : Read}
    (hfits : s.inputInterrupted = false → ∀ c, r.result = .byte c →
      s.charFits nbuf c r.dir = true) : ∃ t, s.turn nbuf r = some t ∧ Kept nbuf t := by
  unfold turn
  split
  next => exact abandon_kept h
  next hflag =>
    split
    next => exact abandon_kept h
    next =>
      obtain ⟨t, ht, hedit, -⟩ := terminate_editing h h.cursor
      exact ⟨t.finish (-1), Option.bind_eq_some_iff.mpr ⟨t, ht, rfl⟩,
        ⟨hedit.length, hedit.cursor, hedit.last⟩, by rintro ⟨⟩⟩
    next c hc => exact char_kept h hret (hfits (Bool.eq_false_iff.mpr hflag) c hc)

/-- A read for which there is room. -/
theorem step_kept (hnbuf : 2 ≤ nbuf) (history : List UInt8) (h : Editing nbuf s)
    (hret : s.ret = none) {r : Read} (hfits : s.fits nbuf r = true) :
    ∃ t, s.step nbuf history r = some t ∧ Kept nbuf t := by
  have hload : ∀ s : Editor, Editing nbuf s → s.ret = none →
      ∃ t, s.loadHistory nbuf history = some t ∧ Kept nbuf t := by
    intro s h hret
    obtain ⟨t, ht, hedit, hret'⟩ := loadHistory_editing hnbuf history h
    exact ⟨t, ht, hedit.kept (hret'.trans hret)⟩
  have hset : ∀ flag pc, Editing nbuf { s with inputInterrupted := flag, pc } :=
    fun _ _ ↦ ⟨h.length, h.cursor, h.last⟩
  unfold step
  dsimp only
  split
  next hpc =>
    refine turn_kept (hset (s.inputInterrupted || r.interrupted) s.pc) hret fun hflag c hc ↦ ?_
    rw [fits, hpc, hc] at hfits
    have hflag : (s.inputInterrupted || r.interrupted) = false := hflag
    rw [hflag] at hfits
    exact hfits
  next => exact ⟨_, rfl, (hset _ _).kept hret⟩
  next =>
    split
    · exact hload _ (hset _ _) hret
    · exact ⟨_, rfl, (hset _ _).kept hret⟩
  next c _ _ =>
    split
    · exact hload _ (hset _ _) hret
    · split
      next hroom =>
        have htwo : s.i + [0x5B, c].length < nbuf := by
          change s.i + 2 < nbuf
          omega
        obtain ⟨t, ht, hedit, hret', -⟩ :=
          append_editing (hset (s.inputInterrupted || r.interrupted) .top) htwo
        exact ⟨t, ht, hedit.kept (hret'.trans hret)⟩
      next => exact ⟨_, rfl, (hset _ _).kept hret⟩
  next => exact ⟨_, rfl, (hset _ _).kept hret⟩

/-- There is no room in the buffer for some characters and a zero. -/
theorem append_terminate_none {s : Editor} {cs : List UInt8} (h : s.buf.length ≤ s.i + cs.length) :
    (s.append cs).bind (fun t ↦ t.terminate t.i) = none := by
  cases ht : s.append cs with
  | none => rfl
  | some t =>
    obtain ⟨buf, hbuf, hs⟩ := Option.bind_eq_some_iff.mp ht
    cases hs
    have hlen : buf.length = s.buf.length := by
      by_cases hle : s.i + cs.length ≤ s.buf.length
      · obtain ⟨buf', hput, hlen, -⟩ := put_of_le hle
        rw [hbuf] at hput
        rw [Option.some.inj hput, hlen]
      · rw [put_of_lt (Nat.lt_of_not_le hle)] at hbuf
        cases hbuf
    have hfull : put buf (s.i + cs.length) [0] = none := by
      refine put_of_lt ?_
      rw [hlen]
      exact Nat.lt_succ_of_le h
    change (put buf (s.i + cs.length) [0]).bind _ = none
    rw [hfull]
    rfl

private theorem char_none (h : Editing nbuf s) {c : UInt8} {dir : Option (List (List UInt8))}
    (hfits : s.charFits nbuf c dir = false) : s.char nbuf c dir = none := by
  have hlen := h.length
  unfold charFits at hfits
  unfold char
  split at hfits
  next hc =>
    have hfull : s.buf.length ≤ s.i + [(0x0A : UInt8)].length := by
      rw [hlen]
      exact Nat.le_of_not_lt (of_decide_eq_false hfits)
    rw [if_pos hc]
    change (s.append [0x0A]).bind (fun t ↦ (t.terminate t.i).bind _) = none
    rw [← Option.bind_assoc, append_terminate_none hfull]
    rfl
  next =>
    split at hfits
    next htab =>
      obtain ⟨rfl, hword⟩ := htab
      change (if s.inWord then s.completeWord dir else some s) = none
      rw [if_pos hword]
      unfold completeWord
      split at hfits
      next => cases hfits
      next name hname =>
        refine append_terminate_none ?_
        change s.buf.length ≤ s.start + name.length
        rw [hlen]
        exact Nat.le_of_not_lt (of_decide_eq_false hfits)
    next => cases hfits

/-- A read for which there is no room. -/
theorem step_none {history : List UInt8} (h : Editing nbuf s) {r : Read}
    (hfits : s.fits nbuf r = false) : s.step nbuf history r = none := by
  unfold fits at hfits
  split at hfits
  next c hpc hc =>
    rw [Bool.or_eq_false_iff] at hfits
    have hset : Editing nbuf
        { s with inputInterrupted := s.inputInterrupted || r.interrupted, pc := .top } :=
      ⟨h.length, h.cursor, h.last⟩
    rw [step, hpc]
    dsimp only
    rw [turn, if_neg (by rw [hfits.1]; exact Bool.false_ne_true), hc]
    exact char_none hset hfits.2
  next => cases hfits

/-- The loop stays in the buffer if there is room in every turn. -/
theorem loop_kept (hnbuf : 2 ≤ nbuf) (history : List UInt8) {reads : List Read} (h : Kept nbuf s)
    (hroomy : s.roomy nbuf history reads = true) :
    ∃ t, s.loop nbuf history reads = some t ∧ Kept nbuf t := by
  induction reads generalizing s with
  | nil => exact ⟨s, rfl, h⟩
  | cons r rs ih =>
    rw [loop]
    by_cases hret : s.ret = none
    · rw [roomy, hret] at hroomy
      obtain ⟨hfits, hall⟩ := Bool.and_eq_true_iff.mp hroomy
      obtain ⟨t, ht, hkept⟩ := step_kept hnbuf history h.editing hret hfits
      rw [ht] at hall
      rw [if_neg (fun hne ↦ hne hret), ht]
      exact ih hkept hall
    · exact ⟨s, if_pos hret, h⟩

/-- The loop leaves the buffer where there is no room in some turn. -/
theorem loop_none (hnbuf : 2 ≤ nbuf) (history : List UInt8) {reads : List Read} (h : Kept nbuf s)
    (hroomy : s.roomy nbuf history reads = false) : s.loop nbuf history reads = none := by
  induction reads generalizing s with
  | nil => cases hroomy
  | cons r rs ih =>
    rw [loop]
    by_cases hret : s.ret = none
    · rw [roomy, hret] at hroomy
      rw [if_neg (fun hne ↦ hne hret)]
      cases hfits : s.fits nbuf r with
      | false =>
        rw [step_none h.editing hfits]
        rfl
      | true =>
        obtain ⟨t, ht, hkept⟩ := step_kept hnbuf history h.editing hret hfits
        rw [hfits, ht] at hroomy
        rw [ht]
        exact ih hkept hroomy
    · have hsome : decide (s.ret ≠ none) = true := decide_eq_true hret
      rw [roomy, hsome] at hroomy
      cases hroomy

private theorem init_kept (hnbuf : 2 ≤ nbuf) : Kept nbuf (init nbuf) := by
  have hlast : (List.replicate nbuf (0 : UInt8))[nbuf - 1]? = some 0 := by
    rw [List.getElem?_replicate, if_pos (by omega)]
  have hpos : 0 < nbuf := by omega
  exact Editing.kept ⟨List.length_replicate, hpos, hlast⟩ rfl

end Editor

/-- `getcmd` writes to its buffer alone, and the line that it returns is terminated by a zero in it,
if and only if there is room in every turn. -/
theorem getcmd_inside {nbuf : Nat} (hnbuf : 2 ≤ nbuf) (history : List UInt8) (reads : List Read) :
    (∃ s, getcmd nbuf history reads = some s ∧ s.buf.length = nbuf ∧
      (s.ret ≠ none → 0 ∈ s.buf) ∧ (s.ret = some 0 → s.buf[s.i]? = some 0)) ↔
      (Editor.init nbuf).roomy nbuf history reads = true := by
  constructor
  · rintro ⟨s, hs, -⟩
    by_contra hroomy
    rw [getcmd, Editor.loop_none hnbuf history (Editor.init_kept hnbuf)
      (Bool.eq_false_iff.mpr hroomy)] at hs
    cases hs
  · intro hroomy
    obtain ⟨s, hs, hkept⟩ := Editor.loop_kept hnbuf history (Editor.init_kept hnbuf) hroomy
    exact ⟨s, hs, hkept.editing.length, fun _ ↦ List.mem_of_getElem? hkept.editing.last, hkept.line⟩

/-- Some characters are typed, in a directory with one name. -/
def typed (name : List UInt8) (cs : List UInt8) : List Read :=
  cs.map fun c ↦ { result := .byte c, interrupted := false, dir := some [name] }

/-- The line before is recalled, its last word is completed, and a space is added. -/
theorem getcmd_inside_recalled : ∃ s,
    getcmd 100 [0x6C, 0x73, 0x20, 0x73]
      (typed [0x73, 0x68] [0x1B, 0x5B, 0x41, 0x09, 0x20, 0x0A]) = some s ∧ s.buf.length = 100 ∧
      (s.ret ≠ none → 0 ∈ s.buf) ∧ (s.ret = some 0 → s.buf[s.i]? = some 0) :=
  (getcmd_inside (by decide) _ _).mpr (by decide +kernel)

/-- Behind 97 of the 98 characters of the line before, a bracket and the character after it leave no
room for the zero behind the newline. Behind 96 characters a name of 20 characters leaves the
buffer. -/
theorem getcmd_overflows :
    getcmd 100 (List.replicate 98 0x61)
        (typed [] [0x1B, 0x5B, 0x41, 0x7F, 0x5B, 0x78, 0x0A]) = none ∧
      getcmd 100 (List.replicate 95 0x78 ++ [0x20, 0x61])
        (typed (List.replicate 20 0x61) [0x1B, 0x5B, 0x41, 0x09]) = none := by
  decide +kernel

end Xv6K210.Shell
