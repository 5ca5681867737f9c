import Mathlib.Computability.Language
import Xv6K210.Shell.Parser

/-!
# The lines that grep prints

Source `user/sh/grep.c`. The matcher decides whether a line has a part in the language of
the pattern. The loop reads a file piece by piece into a buffer of 1024 bytes, in which it keeps the
beginning of a line that has not ended; what it prints does not depend on the pieces.
-/

namespace Xv6K210.Grep

open Shell (chr)

/-! ### The matcher -/

/-- `matchstar`, given what `matchhere` does with the pattern after the star. -/
def matchstar (here : List UInt8 → Bool) (c : UInt8) : List UInt8 → Bool
  | [] => here []
  | t :: text => here (t :: text) || ((t == c || c == chr '.') && matchstar here c text)

/-- The last test of `matchhere`, given what it does with the rest of the pattern. -/
def matchchar (here : List UInt8 → Bool) (c : UInt8) : List UInt8 → Bool
  | [] => false
  | t :: text => (c == chr '.' || c == t) && here text

/-- `matchhere`, over strings without their zeros. -/
def matchhere : List UInt8 → List UInt8 → Bool
  | [], _ => true
  | [c], text => if c = chr '$' then text.isEmpty else matchchar (fun _ ↦ true) c text
  | c :: d :: re, text =>
    if d = chr '*' then matchstar (matchhere re) c text
    else matchchar (matchhere (d :: re)) c text

/-- The loop of `match` over the places of the text. -/
def matchAnywhere (re : List UInt8) : List UInt8 → Bool
  | [] => matchhere re []
  | t :: text => matchhere re (t :: text) || matchAnywhere re text

/-- `match`. -/
def matchLine (re text : List UInt8) : Bool :=
  if re.head? = some (chr '^') then matchhere re.tail text else matchAnywhere re text

/-! ### Patterns -/

/-- The character of a pattern stands for this one. -/
def Fits (c t : UInt8) : Prop := c = chr '.' ∨ c = t

/-- A character, once or any number of times. -/
inductive Item where
  | one (c : UInt8)
  | many (c : UInt8)
  deriving DecidableEq, Repr

/-- The strings that an item stands for. -/
def Item.language : Item → Language UInt8
  | .one c => {s | ∃ t, Fits c t ∧ s = [t]}
  | .many c => KStar.kstar {s | ∃ t, Fits c t ∧ s = [t]}

/-- The items of a pattern, and whether it ends with `$`. -/
def items : List UInt8 → List Item × Bool
  | [] => ([], false)
  | [c] => if c = chr '$' then ([], true) else ([.one c], false)
  | c :: d :: re =>
    if d = chr '*' then (.many c :: (items re).1, (items re).2)
    else (.one c :: (items (d :: re)).1, (items (d :: re)).2)

/-- The texts that begin with what a pattern without `^` stands for, and end with it after `$`. -/
def beginning (re : List UInt8) : Language UInt8 :=
  ((items re).1.map Item.language).prod * if (items re).2 then 1 else ⊤

/-- The texts in which a pattern occurs. -/
def occurring (re : List UInt8) : Language UInt8 :=
  if re.head? = some (chr '^') then beginning re.tail else ⊤ * beginning re

private theorem beginning_nil : beginning [] = ⊤ := by
  ext s
  refine ⟨fun _ ↦ trivial, fun _ ↦ ?_⟩
  exact Language.mem_mul.mpr ⟨[], rfl, s, trivial, rfl⟩

private theorem beginning_end : beginning [chr '$'] = 1 := by
  change (([] : List Item).map Item.language).prod * 1 = 1
  rw [List.map_nil, List.prod_nil, one_mul]

private theorem beginning_star {c d : UInt8} (re : List UInt8) (h : d = chr '*') :
    beginning (c :: d :: re) = (Item.many c).language * beginning re := by
  rw [beginning, items, if_pos h, List.map_cons, List.prod_cons, mul_assoc]
  rfl

private theorem beginning_one {c d : UInt8} (re : List UInt8) (h : d ≠ chr '*') :
    beginning (c :: d :: re) = (Item.one c).language * beginning (d :: re) := by
  rw [beginning, items, if_neg h, List.map_cons, List.prod_cons, mul_assoc]
  rfl

private theorem beginning_single {c : UInt8} (h : c ≠ chr '$') :
    beginning [c] = (Item.one c).language * ⊤ := by
  rw [beginning, items, if_neg h, List.map_cons, List.map_nil, List.prod_cons, List.prod_nil,
    mul_one]
  rfl

/-- A string of a starred character is one of characters for which it stands. -/
theorem mem_many {c : UInt8} {s : List UInt8} :
    s ∈ (Item.many c).language ↔ ∀ t ∈ s, Fits c t := by
  refine Language.mem_kstar.trans ⟨?_, fun h ↦ ⟨s.map fun t ↦ [t], ?_, ?_⟩⟩
  · rintro ⟨L, rfl, hL⟩ t ht
    obtain ⟨y, hy, hty⟩ := List.mem_flatten.mp ht
    obtain ⟨t', hfits, rfl⟩ := hL y hy
    rw [List.mem_singleton.mp hty]
    exact hfits
  · induction s with
    | nil => rfl
    | cons t s ih => rw [List.map_cons, List.flatten_cons,
      ← ih (fun t ht ↦ h t (List.mem_cons_of_mem _ ht))]; rfl
  · intro y hy
    obtain ⟨t, ht, rfl⟩ := List.mem_map.mp hy
    exact ⟨t, h t ht, rfl⟩

/-- A text that begins with one character. -/
theorem mem_one_mul {c : UInt8} {l : Language UInt8} {s : List UInt8} :
    s ∈ (Item.one c).language * l ↔ ∃ t text, s = t :: text ∧ Fits c t ∧ text ∈ l := by
  rw [Language.mem_mul]
  constructor
  · rintro ⟨_, ⟨t, hfits, rfl⟩, text, htext, rfl⟩
    exact ⟨t, text, rfl, hfits, htext⟩
  · rintro ⟨t, text, rfl, hfits, htext⟩
    exact ⟨[t], ⟨t, hfits, rfl⟩, text, htext, rfl⟩

/-- `matchstar` tries what is after any number of the characters. -/
theorem matchstar_iff {here : List UInt8 → Bool} {l : Language UInt8}
    (hhere : ∀ text, here text = true ↔ text ∈ l) (c : UInt8) (text : List UInt8) :
    matchstar here c text = true ↔ text ∈ (Item.many c).language * l := by
  rw [Language.mem_mul]
  induction text with
  | nil =>
    rw [matchstar, hhere]
    refine ⟨fun h ↦ ⟨[], mem_many.mpr (by simp), [], h, rfl⟩, ?_⟩
    rintro ⟨a, -, b, hb, hab⟩
    rw [(List.append_eq_nil_iff.mp hab).2] at hb
    exact hb
  | cons t text ih =>
    rw [matchstar, Bool.or_eq_true, Bool.and_eq_true, hhere, ih]
    constructor
    · rintro (h | ⟨hfits, a, ha, b, hb, rfl⟩)
      · exact ⟨[], mem_many.mpr (by simp), _, h, rfl⟩
      · refine ⟨t :: a, mem_many.mpr (List.forall_mem_cons.mpr ⟨?_, mem_many.mp ha⟩), b, hb, rfl⟩
        rcases Bool.or_eq_true _ _ ▸ hfits with hc | hdot
        · exact .inr (beq_iff_eq.mp hc).symm
        · exact .inl (beq_iff_eq.mp hdot)
    · rintro ⟨a, ha, b, hb, hab⟩
      cases a with
      | nil => exact .inl (by rwa [← hab])
      | cons t' a =>
        obtain ⟨rfl, rfl⟩ := List.cons.inj hab
        obtain ⟨hfits, ha⟩ := List.forall_mem_cons.mp (mem_many.mp ha)
        refine .inr ⟨?_, a, mem_many.mpr ha, b, hb, rfl⟩
        rcases hfits with rfl | rfl <;> simp

private theorem fits_iff (c t : UInt8) : (c == chr '.' || c == t) = true ↔ Fits c t := by
  rw [Bool.or_eq_true, beq_iff_eq, beq_iff_eq]
  rfl

/-- A character that is not starred takes one of the text. -/
theorem matchchar_iff {here : List UInt8 → Bool} {l : Language UInt8}
    (hhere : ∀ text, here text = true ↔ text ∈ l) (c : UInt8) (text : List UInt8) :
    matchchar here c text = true ↔ text ∈ (Item.one c).language * l := by
  rw [mem_one_mul]
  cases text with
  | nil => simp [matchchar]
  | cons t text =>
    rw [matchchar, Bool.and_eq_true, fits_iff, hhere]
    simp

/-- `matchhere` accepts the texts that begin with the pattern. -/
theorem matchhere_iff (re text : List UInt8) :
    matchhere re text = true ↔ text ∈ beginning re := by
  -- a star takes two characters off the pattern, so the induction gives what is after both
  have h : (∀ text, matchhere re text = true ↔ text ∈ beginning re) ∧
      ∀ text, matchhere re.tail text = true ↔ text ∈ beginning re.tail := by
    have hnil : ∀ text, matchhere [] text = true ↔ text ∈ beginning [] := by
      intro text
      rw [beginning_nil, matchhere]
      exact ⟨fun _ ↦ trivial, fun _ ↦ rfl⟩
    induction re with
    | nil => exact ⟨hnil, hnil⟩
    | cons c re ih =>
      refine ⟨fun text ↦ ?_, ih.1⟩
      cases re with
      | nil =>
        by_cases hend : c = chr '$'
        · rw [hend, beginning_end, matchhere, if_pos rfl, Language.mem_one, List.isEmpty_iff]
        · rw [beginning_single hend, matchhere, if_neg hend]
          exact matchchar_iff (fun _ ↦ ⟨fun _ ↦ trivial, fun _ ↦ rfl⟩) c text
      | cons d re =>
        by_cases hstar : d = chr '*'
        · rw [beginning_star re hstar, matchhere, if_pos hstar]
          exact matchstar_iff ih.2 c text
        · rw [beginning_one re hstar, matchhere, if_neg hstar]
          exact matchchar_iff ih.1 c text
  exact h.1 text

private theorem matchAnywhere_iff (re text : List UInt8) :
    matchAnywhere re text = true ↔ text ∈ ⊤ * beginning re := by
  rw [Language.mem_mul]
  induction text with
  | nil =>
    rw [matchAnywhere, matchhere_iff]
    refine ⟨fun h ↦ ⟨[], trivial, [], h, rfl⟩, ?_⟩
    rintro ⟨a, -, b, hb, hab⟩
    rw [(List.append_eq_nil_iff.mp hab).2] at hb
    exact hb
  | cons t text ih =>
    rw [matchAnywhere, Bool.or_eq_true, matchhere_iff, ih]
    constructor
    · rintro (h | ⟨a, -, b, hb, rfl⟩)
      · exact ⟨[], trivial, _, h, rfl⟩
      · exact ⟨t :: a, trivial, b, hb, rfl⟩
    · rintro ⟨a, -, b, hb, hab⟩
      cases a with
      | nil => exact .inl (by rwa [← hab])
      | cons t' a => exact .inr ⟨a, trivial, b, hb, (List.cons.inj hab).2⟩

/-- `match` accepts exactly the texts in which the pattern occurs, as its `^`, `.`, `*` and `$`
say. -/
theorem matchLine_iff (re text : List UInt8) :
    matchLine re text = true ↔ text ∈ occurring re := by
  unfold matchLine occurring
  split_ifs with h
  · exact matchhere_iff re.tail text
  · exact matchAnywhere_iff re text

/-! ### The lines of a file -/

/-- `sizeof(buf)`. -/
def bufSize : Nat := 1024

/-- `strchr(p, '\n')`: what is before the newline and after it, if there is one before a zero. -/
def strchr : List UInt8 → Option (List UInt8 × List UInt8)
  | [] => none
  | c :: s =>
    if c = 0 then none
    else if c = chr '\n' then some ([], s)
    else (strchr s).map fun x ↦ (c :: x.1, x.2)

section

variable (re : List UInt8)

/-- The loop over the lines in the buffer, with what it prints and what it leaves. -/
def scan : Nat → List UInt8 → List UInt8 × List UInt8
  | 0, buf => ([], buf)
  | turns + 1, buf =>
    match strchr buf with
    | none => ([], buf)
    | some (line, buf) =>
      let x := scan turns buf
      ((if matchLine re line then line ++ [chr '\n'] else []) ++ x.1, x.2)

/-- The loop of `grep` over the pieces of the file: a call of `read` gives as much as there is room
for or is left of the file, and no more than one byte and the number that is ready besides. -/
def loop : List Nat → List UInt8 → List UInt8 → List UInt8
  | [], _, _ => []
  | ready :: more, buf, file =>
    let n := min (ready + 1) (bufSize - buf.length - 1)
    if file.take n = [] then []
    else
      let buf := buf ++ file.take n
      let x := scan re buf.length buf
      x.1 ++ loop more x.2 (file.drop n)

/-- `grep`. -/
def grep (ready : List Nat) (file : List UInt8) : List UInt8 := loop re ready [] file

/-- The lines of a file, without the end that no newline ends. -/
def linesOf (file : List UInt8) : List (List UInt8) := (file.splitOn (chr '\n')).dropLast

/-- A line that goes into the buffer with its newline and holds no zero. -/
def Readable (line : List UInt8) : Bool := line.length + 1 < bufSize && !line.contains 0

/-- The lines that match up to the first that cannot be read, with their newlines. -/
def printed (file : List UInt8) : List UInt8 :=
  (((linesOf file).takeWhile Readable).filter (matchLine re)).flatMap (· ++ [chr '\n'])

end

private theorem strchr_eq_some {s line rest : List UInt8} (h : strchr s = some (line, rest)) :
    s = line ++ chr '\n' :: rest ∧ chr '\n' ∉ line ∧ 0 ∉ line := by
  induction s generalizing line with
  | nil => cases h
  | cons c s ih =>
    rw [strchr] at h
    split_ifs at h with hzero hline
    · obtain ⟨rfl, rfl⟩ := Prod.mk.inj (Option.some.inj h)
      exact ⟨by rw [hline]; rfl, by simp, by simp⟩
    · obtain ⟨⟨line', rest'⟩, hx, heq⟩ := Option.map_eq_some_iff.mp h
      obtain ⟨rfl, rfl⟩ := Prod.mk.inj heq
      obtain ⟨rfl, hnl, hz⟩ := ih hx
      refine ⟨rfl, ?_, ?_⟩
      · simpa using ⟨Ne.symm hline, hnl⟩
      · simpa using ⟨Ne.symm hzero, hz⟩

/-- Without a newline before a zero, the buffer begins with a piece of a line, or with a piece of a
line and a zero. -/
theorem strchr_eq_none {s : List UInt8} (h : strchr s = none) :
    chr '\n' ∉ s ∨ ∃ u v, s = u ++ 0 :: v ∧ chr '\n' ∉ u := by
  induction s with
  | nil => exact .inl (by simp)
  | cons c s ih =>
    rw [strchr] at h
    split_ifs at h with hzero hline
    · exact .inr ⟨[], s, by rw [hzero]; rfl, by simp⟩
    · rcases ih (Option.map_eq_none_iff.mp h) with hnone | ⟨u, v, rfl, hu⟩
      · exact .inl (by simpa using ⟨Ne.symm hline, hnone⟩)
      · exact .inr ⟨c :: u, v, rfl, by simpa using ⟨Ne.symm hline, hu⟩⟩

private theorem linesOf_line {line : List UInt8} (h : chr '\n' ∉ line) (file : List UInt8) :
    linesOf (line ++ chr '\n' :: file) = line :: linesOf file := by
  have hline : ∀ c ∈ line, (c == chr '\n') = false := fun c hc ↦
    beq_eq_false_iff_ne.mpr fun heq ↦ h (heq ▸ hc)
  unfold linesOf List.splitOn
  rw [List.splitOnP_append_cons_of_forall_mem hline _ (by simp)]
  exact List.dropLast_cons_of_ne_nil (List.splitOnP_ne_nil _ _)

/-- A file that begins without a newline begins its first line so. -/
theorem splitOn_prefix {u : List UInt8} (h : chr '\n' ∉ u) (file : List UInt8) :
    ∃ line lines, (u ++ file).splitOn (chr '\n') = (u ++ line) :: lines := by
  unfold List.splitOn
  induction u with
  | nil =>
    obtain ⟨line, lines, heq⟩ := List.exists_cons_of_ne_nil
      (List.splitOnP_ne_nil (· == chr '\n') file)
    exact ⟨line, lines, heq⟩
  | cons c u ih =>
    obtain ⟨hc, hu⟩ := not_or.mp (mt List.mem_cons.mpr h)
    obtain ⟨line, lines, heq⟩ := ih hu
    refine ⟨line, lines, ?_⟩
    rw [List.cons_append, List.splitOnP_cons_eq_if_modifyHead, heq,
      if_neg (by simpa using Ne.symm hc)]
    rfl

section

variable (re : List UInt8)

private theorem printed_line {line : List UInt8} (h : chr '\n' ∉ line) (hread : Readable line)
    (file : List UInt8) : printed re (line ++ chr '\n' :: file) =
      (if matchLine re line then line ++ [chr '\n'] else []) ++ printed re file := by
  unfold printed
  rw [linesOf_line h, List.takeWhile_cons_of_pos hread]
  by_cases hmatch : matchLine re line
  · rw [if_pos hmatch, List.filter_cons_of_pos hmatch, List.flatMap_cons]
  · rw [if_neg hmatch, List.filter_cons_of_neg hmatch, List.nil_append]

/-- After a piece of a line that cannot be read nothing is printed. -/
theorem printed_stuck {u : List UInt8} (h : chr '\n' ∉ u)
    (hlong : ∀ line, Readable (u ++ line) = false) (file : List UInt8) :
    printed re (u ++ file) = [] := by
  obtain ⟨line, lines, heq⟩ := splitOn_prefix h file
  unfold printed linesOf
  rw [heq]
  cases lines with
  | nil => rfl
  | cons line' lines =>
    rw [List.dropLast_cons_cons, List.takeWhile_cons_of_neg (by simpa using hlong line)]
    rfl

private theorem printed_of_not_mem {u : List UInt8} (h : chr '\n' ∉ u) : printed re u = [] := by
  have hline : ∀ c ∈ u, (c == chr '\n') = false := fun c hc ↦
    beq_eq_false_iff_ne.mpr fun heq ↦ h (heq ▸ hc)
  unfold printed linesOf List.splitOn
  rw [List.splitOnP_eq_singleton hline]
  rfl

/-- When there is no room in the buffer or no more of the file, nothing is left to be printed. -/
theorem printed_rest {buf file : List UInt8} (h : strchr buf = none)
    (hend : file = [] ∨ bufSize ≤ buf.length + 1) : printed re (buf ++ file) = [] := by
  rcases strchr_eq_none h with hbuf | ⟨u, v, rfl, hu⟩
  · rcases hend with rfl | hfull
    · rw [List.append_nil]
      exact printed_of_not_mem re hbuf
    · refine printed_stuck re hbuf (fun line ↦ ?_) file
      have hlong : ¬ (buf ++ line).length + 1 < bufSize := by
        rw [List.length_append]
        omega
      rw [Readable, decide_eq_false hlong, Bool.false_and]
  · rw [show u ++ 0 :: v ++ file = (u ++ [0]) ++ (v ++ file) by simp]
    refine printed_stuck re (u := u ++ [0]) ?_ (fun line ↦ ?_) (v ++ file)
    · rw [List.mem_append, not_or]
      exact ⟨hu, by decide⟩
    · simp [Readable]

/-- What is printed of the lines in the buffer and what is left of it stand for the buffer. -/
theorem scan_printed {turns : Nat} {buf : List UInt8} (hturns : buf.length ≤ turns)
    (hsize : buf.length < bufSize) :
    strchr (scan re turns buf).2 = none ∧ (scan re turns buf).2.length ≤ buf.length ∧
      ∀ file, printed re (buf ++ file) =
        (scan re turns buf).1 ++ printed re ((scan re turns buf).2 ++ file) := by
  induction turns generalizing buf with
  | zero =>
    rw [List.length_eq_zero_iff.mp (Nat.le_zero.mp hturns)]
    exact ⟨rfl, Nat.le_refl 0, fun _ ↦ rfl⟩
  | succ turns ih =>
    rw [scan]
    cases hx : strchr buf with
    | none => exact ⟨hx, Nat.le_refl _, fun _ ↦ rfl⟩
    | some x =>
      obtain ⟨line, rest⟩ := x
      obtain ⟨rfl, hline, hzero⟩ := strchr_eq_some hx
      rw [List.length_append, List.length_cons] at hturns hsize ⊢
      have hrest : rest.length ≤ turns := by omega
      obtain ⟨hnone, hlen, hprinted⟩ := ih hrest (by omega)
      refine ⟨hnone, by dsimp only; omega, fun file ↦ ?_⟩
      have hread : Readable line := by
        rw [Readable, Bool.and_eq_true, decide_eq_true_eq]
        exact ⟨by omega, by simpa using hzero⟩
      rw [List.append_assoc, List.cons_append, printed_line re hline hread, hprinted file,
        List.append_assoc]

/-- The loop prints what is to be printed of the buffer and the file. -/
theorem loop_printed {ready : List Nat} {buf file : List UInt8} (h : strchr buf = none)
    (hsize : buf.length < bufSize) (hready : file.length < ready.length) :
    loop re ready buf file = printed re (buf ++ file) := by
  induction ready generalizing buf file with
  | nil => cases hready
  | cons r ready ih =>
    rw [loop]
    dsimp only
    split_ifs with hempty
    · refine (printed_rest re h ?_).symm
      rcases List.take_eq_nil_iff.mp hempty with hn | hfile
      · exact .inr (by omega)
      · exact .inl hfile
    · have hfile : file ≠ [] := by
        rintro rfl
        exact hempty List.take_nil
      have hn : min (r + 1) (bufSize - buf.length - 1) ≠ 0 := by
        intro hn
        rw [hn] at hempty
        exact hempty rfl
      set n := min (r + 1) (bufSize - buf.length - 1)
      have hroom : (buf ++ file.take n).length < bufSize := by
        rw [List.length_append, List.length_take]
        omega
      obtain ⟨hnone, hlen, hprinted⟩ := scan_printed re (Nat.le_refl _) hroom
      have hless : (file.drop n).length < ready.length := by
        have hpos := List.length_pos_iff.mpr hfile
        rw [List.length_drop]
        rw [List.length_cons] at hready
        omega
      rw [ih hnone (hlen.trans_lt hroom) hless, ← hprinted, List.append_assoc,
        List.take_append_drop]

/-- In whatever pieces it reads the file, `grep` prints the lines that match, in order and with
their newlines, up to the first that does not go into the buffer or holds a zero. -/
theorem grep_prints {ready : List Nat} {file : List UInt8} (h : file.length < ready.length) :
    grep re ready file = printed re file :=
  loop_printed re rfl (by decide) h

end

/-- Two lines, read two bytes at a time; the pattern is `c.$`. -/
theorem grep_prints_small : grep [99, 46, 36] (List.replicate 7 1) [97, 98, 10, 99, 100, 10] =
    [99, 100, 10] :=
  (grep_prints [99, 46, 36] (by decide)).trans (by decide)

end Xv6K210.Grep
