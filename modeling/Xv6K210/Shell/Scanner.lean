import Xv6K210.Shell.Grammar

/-!
# The scanner reads the tokens of a line

Where the line goes on with some tokens, `peek` tells the first character of the first token
and `gettoken` takes that token. The state of the scanner is the cursor, so the lemmas say
what the rest of the line consists of.
-/

namespace Xv6K210.Shell

/-- The line goes on with `rest` at a place. -/
def At (text : List UInt8) (s : Nat) (rest : List UInt8) : Prop :=
  s ≤ text.length ∧ text.drop s = rest

/-- The line goes on with tokens at a place. -/
def Lexes (text : List UInt8) (s : Nat) (ts : List Token) : Prop :=
  ∃ rest, At text s rest ∧ Spaced ts rest

namespace At

variable {text xs rest : List UInt8} {s : Nat}

/-- The scanner starts with the whole text. -/
theorem start (text : List UInt8) : At text 0 text := ⟨Nat.zero_le _, rfl⟩

/-- The cursor moves over some characters. -/
theorem advance (h : At text s (xs ++ rest)) : At text (s + xs.length) rest := by
  have hlen := congrArg List.length h.2
  have hle := h.1
  rw [List.length_drop, List.length_append] at hlen
  refine ⟨by omega, ?_⟩
  rw [← List.drop_drop, h.2, List.drop_left]

/-- What is left with what is passed is the text. -/
theorem length_eq (h : At text s rest) : s + rest.length = text.length := by
  have hlen := congrArg List.length h.2
  have hle := h.1
  rw [List.length_drop] at hlen
  omega

/-- The character under the cursor, or the zero byte at the end. -/
theorem charAt (h : At text s rest) : charAt (text ++ [0]) s = rest.headD 0 := by
  have hbuf : (text ++ [0]).drop s = rest ++ [0] := by
    rw [List.drop_append_of_le_length h.1, h.2]
  unfold Shell.charAt
  rw [List.getD_eq_getElem?_getD, ← List.head?_drop, hbuf]
  cases rest <;> rfl

/-- The loops of the scanner stop where their condition ends. -/
theorem skip {p : UInt8 → Bool} (h : At text s (xs ++ rest)) (hxs : ∀ c ∈ xs, p c = true)
    (hrest : ∀ c, rest.head? = some c → p c = false) (turns : Nat) (hturns : xs.length ≤ turns) :
    skip p (text ++ [0]) text.length turns s = s + xs.length := by
  induction xs generalizing s turns with
  | nil =>
    cases turns with
    | zero => rfl
    | succ turns =>
      rw [Shell.skip, if_neg, List.length_nil, Nat.add_zero]
      rintro ⟨hlt, hp⟩
      rw [h.charAt] at hp
      cases rest with
      | nil =>
        have hlen := h.length_eq
        simp only [List.append_nil, List.length_nil] at hlen
        omega
      | cons c rest =>
        rw [List.nil_append, List.headD_cons, hrest c rfl] at hp
        cases hp
  | cons x xs ih =>
    cases turns with
    | zero => cases hturns
    | succ turns =>
      have hlen := h.length_eq
      have hlt : s < text.length := by
        simp only [List.cons_append, List.length_cons] at hlen
        omega
      have hp : p (Shell.charAt (text ++ [0]) s) = true := by
        rw [h.charAt]
        exact hxs x List.mem_cons_self
      have hcons : At text s ([x] ++ (xs ++ rest)) := h
      have hnext : At text (s + 1) (xs ++ rest) := hcons.advance
      rw [Shell.skip, if_pos ⟨hlt, hp⟩, ih hnext (fun c hc ↦ hxs c (List.mem_cons_of_mem _ hc))
        turns (Nat.le_of_succ_le_succ hturns), List.length_cons]
      omega

/-- White space is skipped. -/
theorem skipWhite (h : At text s (xs ++ rest)) (hxs : ∀ c ∈ xs, c ∈ whitespace)
    (hrest : ∀ c, rest.head? = some c → c ∉ whitespace) :
    skipWhite (text ++ [0]) text.length s = s + xs.length := by
  have hlen := h.length_eq
  rw [List.length_append] at hlen
  refine h.skip (fun c hc ↦ List.contains_iff_mem.mpr (hxs c hc)) (fun c hc ↦ ?_) _ (by omega)
  exact Bool.eq_false_iff.mpr fun hw ↦ hrest c hc (List.contains_iff_mem.mp hw)

end At

/-! ## Characters of tokens -/

/-- The first character of a token. -/
def Token.first (t : Token) : UInt8 := t.chars.headD 0

private theorem plain_iff {c : UInt8} : plain c = true ↔ c ∉ whitespace ∧ c ∉ symbols := by
  simp [plain]

/-- A word starts with no blank, symbol or null byte. -/
theorem Word.first_spec (w : Word) :
    (Token.word w).first ∉ whitespace ∧ (Token.word w).first ∉ symbols ∧
      (Token.word w).first ≠ 0 := by
  have hne := w.nonempty
  have hplain := w.plain
  have hfirst : (Token.word w).first = w.chars.headD 0 := rfl
  rw [hfirst]
  cases hc : w.chars with
  | nil => exact absurd hc hne
  | cons c cs =>
    have h := hplain c (by rw [hc]; exact List.mem_cons_self)
    exact ⟨(plain_iff.mp h.1).1, (plain_iff.mp h.1).2, h.2⟩

/-- No token starts with white space or with the zero byte. -/
theorem Token.first_spec (t : Token) : t.first ∉ whitespace ∧ t.first ≠ 0 := by
  cases t with
  | word w => exact ⟨w.first_spec.1, w.first_spec.2.2⟩
  | lt | gt | gtgt | bar | amp | semi | lpar | rpar => decide

private theorem Token.chars_ne_nil (t : Token) : t.chars ≠ [] := by
  cases t with
  | word w => exact w.nonempty
  | lt | gt | gtgt | bar | amp | semi | lpar | rpar => exact nofun

private theorem Token.head?_append (t : Token) (rest : List UInt8) :
    (t.chars ++ rest).head? = some t.first := by
  have h := t.chars_ne_nil
  unfold Token.first
  cases hc : t.chars with
  | nil => exact absurd hc h
  | cons c cs => rfl

private theorem Token.headD_append (t : Token) (rest : List UInt8) :
    (t.chars ++ rest).headD 0 = t.first := by
  rw [List.headD_eq_head?_getD, t.head?_append, Option.getD_some]

/-! ## The cursor before a token -/

/-- Before a token the scanner skips to its first character. -/
theorem Lexes.skipWhite_cons {text : List UInt8} {s : Nat} {t : Token} {ts : List Token}
    (h : Lexes text s (t :: ts)) :
    ∃ rest, At text (skipWhite (text ++ [0]) text.length s) (t.chars ++ rest) ∧ t.Ends rest ∧
      Spaced ts rest := by
  obtain ⟨all, hat, hsp⟩ := h
  cases hsp with
  | @cons ws rest _ _ hws hend hrest =>
    have hskip := hat.skipWhite hws fun c hc ↦ by
      rw [t.head?_append] at hc
      exact Option.some.inj hc ▸ t.first_spec.1
    rw [hskip]
    exact ⟨rest, hat.advance, hend, hrest⟩

/-- After the last token the scanner skips to the end of the line. -/
theorem Lexes.skipWhite_nil {text : List UInt8} {s : Nat} (h : Lexes text s []) :
    skipWhite (text ++ [0]) text.length s = text.length := by
  obtain ⟨all, hat, hsp⟩ := h
  cases hsp with
  | nil hws =>
    have hlen := hat.length_eq
    rw [← List.append_nil all] at hat
    rw [hat.skipWhite hws nofun, hlen]

/-- The end of the text has no token. -/
theorem Lexes.end (text : List UInt8) : Lexes text text.length [] :=
  ⟨[], ⟨Nat.le_refl _, List.drop_length⟩, .nil nofun⟩

/-- Skipping white space changes nothing of what follows. -/
theorem Lexes.skip {text : List UInt8} {s : Nat} {ts : List Token} (h : Lexes text s ts) :
    Lexes text (skipWhite (text ++ [0]) text.length s) ts := by
  cases ts with
  | nil =>
    rw [h.skipWhite_nil]
    exact Lexes.end text
  | cons t ts =>
    obtain ⟨rest, hat, hend, hsp⟩ := h.skipWhite_cons
    have hnone : ∀ c ∈ ([] : List UInt8), c ∈ whitespace := nofun
    exact ⟨_, hat, .cons hnone hend hsp⟩

/-- Whether the first of some tokens starts with one of some characters. -/
def startsIn (toks : List UInt8) : List Token → Bool
  | [] => false
  | t :: _ => toks.contains t.first

/-- `peek` compares the first character of the next token. -/
theorem Lexes.peek {text : List UInt8} {s : Nat} {ts : List Token} (h : Lexes text s ts)
    (toks : List UInt8) :
    Shell.peek (text ++ [0]) text.length s toks =
      (startsIn toks ts, skipWhite (text ++ [0]) text.length s) := by
  unfold Shell.peek
  dsimp only
  cases ts with
  | nil =>
    have hat : At text text.length [] := ⟨Nat.le_refl _, List.drop_length⟩
    rw [h.skipWhite_nil, hat.charAt]
    rfl
  | cons t ts =>
    obtain ⟨rest, hat, _, _⟩ := h.skipWhite_cons
    rw [hat.charAt, t.headD_append]
    simp [t.first_spec.2, startsIn]

/-! ## Taking a token -/

/-- What `gettoken` returns for a token. -/
def Token.ret : Token → UInt8
  | word _ => chr 'a'
  | lt => chr '<'
  | gt => chr '>'
  | gtgt => chr '+'
  | bar => chr '|'
  | amp => chr '&'
  | semi => chr ';'
  | lpar => chr '('
  | rpar => chr ')'

/-- The characters of a span. -/
def slice (buf : List UInt8) (p : Span) : List UInt8 := (buf.drop p.1).take (p.2 - p.1)

/-- A span of a word: plain characters up to a place inside the line, with none there. -/
structure WordSpan (buf : List UInt8) (p : Span) : Prop where
  order : p.1 ≤ p.2
  inside : p.2 < buf.length
  plain : ∀ i, p.1 ≤ i → i < p.2 → plain (charAt buf i) = true ∧ charAt buf i ≠ 0
  stop : ¬ (Shell.plain (charAt buf p.2) = true ∧ charAt buf p.2 ≠ 0)

/-- The characters of the token at the cursor. -/
theorem At.slice {text xs rest : List UInt8} {s : Nat} (h : At text s (xs ++ rest)) :
    slice (text ++ [0]) (s, s + xs.length) = xs := by
  have hlen : s + xs.length - s = xs.length := by omega
  unfold Shell.slice
  dsimp only
  rw [List.drop_append_of_le_length h.1, h.2, hlen, List.append_assoc, List.take_left]

/-- The span of a word. -/
theorem At.wordSpan {text rest : List UInt8} {s : Nat} {w : Word}
    (h : At text s (w.chars ++ rest)) (hend : (Token.word w).Ends rest) :
    WordSpan (text ++ [0]) (s, s + w.chars.length) := by
  have hlen := h.length_eq
  rw [List.length_append] at hlen
  refine ⟨Nat.le_add_right _ _, ?_, fun i hi hlt ↦ ?_, ?_⟩
  · rw [List.length_append, List.length_singleton]
    dsimp only
    omega
  · dsimp only at hi hlt
    obtain ⟨k, rfl⟩ := Nat.exists_eq_add_of_le hi
    have hk : k < w.chars.length := by omega
    have hget : Shell.charAt (text ++ [0]) (s + k) = w.chars[k] := by
      have hbuf : (text ++ [0]).drop s = w.chars ++ rest ++ [0] := by
        rw [List.drop_append_of_le_length h.1, h.2]
      unfold Shell.charAt
      rw [List.getD_eq_getElem?_getD, ← List.getElem?_drop, hbuf, List.append_assoc,
        List.getElem?_append_left hk, List.getElem?_eq_getElem hk, Option.getD_some]
    rw [hget]
    exact w.plain _ (List.getElem_mem hk)
  · rw [h.advance.charAt]
    cases rest with
    | nil => exact fun hz ↦ hz.2 rfl
    | cons c rest =>
      rw [List.headD_cons, hend c rfl]
      exact fun hz ↦ by cases hz.1

/-- `gettoken` takes the next token. The span of a word is the span of its characters. -/
theorem Lexes.gettoken {text : List UInt8} {s : Nat} {t : Token} {ts : List Token}
    (h : Lexes text s (t :: ts)) :
    (gettoken (text ++ [0]) text.length s).ret = t.ret ∧
    Lexes text (gettoken (text ++ [0]) text.length s).ps ts ∧
    ∀ w, t = .word w →
      slice (text ++ [0]) ((gettoken (text ++ [0]) text.length s).q,
        (gettoken (text ++ [0]) text.length s).eq) = w.chars ∧
      WordSpan (text ++ [0]) ((gettoken (text ++ [0]) text.length s).q,
        (gettoken (text ++ [0]) text.length s).eq) := by
  obtain ⟨rest, hat, hend, hsp⟩ := h.skipWhite_cons
  have hafter : Lexes text (skipWhite (text ++ [0]) text.length s + t.chars.length) ts :=
    ⟨rest, hat.advance, hsp⟩
  have hchar := hat.charAt
  rw [t.headD_append] at hchar
  unfold Shell.gettoken
  dsimp only
  rw [hchar]
  generalize skipWhite (text ++ [0]) text.length s = q at hat hafter hchar ⊢
  cases t with
  | word w =>
    have hf := w.first_spec
    have hne : ∀ c ∈ symbols, (Token.word w).first ≠ c := fun c hc heq ↦ hf.2.1 (heq ▸ hc)
    have hlen := hat.length_eq
    rw [List.length_append] at hlen
    have hskip : Shell.skip Shell.plain (text ++ [0]) text.length (text.length - q) q =
        q + w.chars.length :=
      hat.skip (fun c hc ↦ (w.plain c hc).1) hend _ (by
        have hchars : (Token.word w).chars.length = w.chars.length := rfl
        omega)
    have hsym : ¬ ((Token.word w).first = chr '|' ∨ (Token.word w).first = chr '(' ∨
        (Token.word w).first = chr ')' ∨ (Token.word w).first = chr ';' ∨
        (Token.word w).first = chr '&' ∨ (Token.word w).first = chr '<') := by
      rintro (h | h | h | h | h | h) <;> exact hne _ (by decide) h
    rw [if_neg hf.2.2, if_neg hsym, if_neg (hne _ (by decide)), hskip]
    refine ⟨rfl, hafter.skip, fun w' hw' ↦ ?_⟩
    cases hw'
    exact ⟨At.slice hat, At.wordSpan hat hend⟩
  | gt =>
    have hnext : charAt (text ++ [0]) (q + 1) ≠ chr '>' := by
      have hcons : At text q ([chr '>'] ++ rest) := hat
      have hnat : At text (q + 1) rest := hcons.advance
      rw [hnat.charAt]
      cases rest with
      | nil => decide
      | cons c rest => exact fun hc ↦ hend (congrArg some hc)
    rw [if_neg hnext]
    exact ⟨rfl, hafter.skip, nofun⟩
  | gtgt =>
    have hnext : charAt (text ++ [0]) (q + 1) = chr '>' := by
      have hcons : At text q ([chr '>'] ++ ([chr '>'] ++ rest)) := hat
      have hnat : At text (q + 1) ([chr '>'] ++ rest) := hcons.advance
      rw [hnat.charAt]
      rfl
    rw [if_pos hnext]
    exact ⟨rfl, hafter.skip, nofun⟩
  | lt | bar | amp | semi | lpar | rpar =>
    exact ⟨rfl, hafter.skip, nofun⟩

/-- At the end of the line `gettoken` returns zero. -/
theorem Lexes.gettoken_nil {text : List UInt8} {s : Nat} (h : Lexes text s []) :
    (Shell.gettoken (text ++ [0]) text.length s).ret = 0 ∧
      Lexes text (Shell.gettoken (text ++ [0]) text.length s).ps [] := by
  have hat : At text text.length [] := ⟨Nat.le_refl _, List.drop_length⟩
  have hchar : charAt (text ++ [0]) text.length = 0 := hat.charAt
  unfold Shell.gettoken
  dsimp only
  rw [h.skipWhite_nil, hchar]
  exact ⟨rfl, (Lexes.end text).skip⟩

end Xv6K210.Shell
