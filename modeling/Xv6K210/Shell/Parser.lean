import Mathlib.Tactic.Common

/-!
# The parser of the shell

`src/user/sh/sh.c`: the scanner `gettoken` and `peek`, the recursive descent from
`parseline` to `parseexec`, and `nulterminate`. The parser leaves the line as it is and
builds commands that point into it; the marks at the ends of the words are written at the
end, over white space and symbols.
-/

namespace Xv6K210.Shell

/-- The byte of a character. -/
abbrev chr (c : Char) : UInt8 := UInt8.ofNat c.toNat

/-- `whitespace`. -/
def whitespace : List UInt8 := [chr ' ', chr '\t', chr '\r', chr '\n', 0x0B]

/-- `symbols`. -/
def symbols : List UInt8 := [chr '<', chr '|', chr '>', chr '&', chr ';', chr '(', chr ')']

/-- `O_WRONLY`. -/
def oWronly : Nat := 0x001

/-- `O_CREATE`. -/
def oCreate : Nat := 0x200

/-- `O_TRUNC`. -/
def oTrunc : Nat := 0x400

/-- `MAXARGS`. -/
def maxArgs : Nat := 10

/-- The commands, over what stands for a string: a place in the line and the place after its
end for the parser, the characters for a reader. -/
inductive Cmd (σ : Type) where
  | execcmd (argv : List σ)
  | redircmd (cmd : Cmd σ) (file : σ) (mode fd : Nat)
  | pipecmd (left right : Cmd σ)
  | listcmd (left right : Cmd σ)
  | backcmd (cmd : Cmd σ)
  deriving DecidableEq, Repr

/-- The start and the end of a string in the line, `q` and `eq`. -/
abbrev Span : Type := Nat × Nat

/-- What makes the parser give up, and running out of turns. -/
inductive Err where
  | leftovers | missingFile | parseblock | missingParen | badToken | tooManyArgs | turns
  deriving DecidableEq, Repr

/-- The byte at a place of the line. -/
def charAt (buf : List UInt8) (s : Nat) : UInt8 := buf.getD s 0

/-- `strlen`. -/
def strlen (buf : List UInt8) : Nat := (buf.takeWhile (· != 0)).length

/-- A loop `while(s < es && p(*s)) s++`, which takes at most `es - s` turns. -/
def skip (p : UInt8 → Bool) (buf : List UInt8) (es : Nat) : Nat → Nat → Nat
  | 0, s => s
  | turns + 1, s => if s < es ∧ p (charAt buf s) then skip p buf es turns (s + 1) else s

/-- The loop over white space. -/
def skipWhite (buf : List UInt8) (es s : Nat) : Nat :=
  skip whitespace.contains buf es (es - s) s

/-- A character of a word. -/
def plain (c : UInt8) : Bool := !whitespace.contains c && !symbols.contains c

/-- What `gettoken` returns and stores: the kind of the token, its span, and the cursor. -/
structure Tok where
  ret : UInt8
  q : Nat
  eq : Nat
  ps : Nat
  deriving DecidableEq, Repr

/-- `gettoken`. -/
def gettoken (buf : List UInt8) (es ps : Nat) : Tok :=
  let q := skipWhite buf es ps
  let c := charAt buf q
  let r : UInt8 × Nat :=
    if c = 0 then (c, q)
    else if c = chr '|' ∨ c = chr '(' ∨ c = chr ')' ∨ c = chr ';' ∨ c = chr '&' ∨
        c = chr '<' then (c, q + 1)
    else if c = chr '>' then
      if charAt buf (q + 1) = chr '>' then (chr '+', q + 2) else (c, q + 1)
    else (chr 'a', skip plain buf es (es - q) q)
  ⟨r.1, q, r.2, skipWhite buf es r.2⟩

/-- `peek`: whether the next character is one of `toks`, and the cursor. -/
def peek (buf : List UInt8) (es ps : Nat) (toks : List UInt8) : Bool × Nat :=
  let s := skipWhite buf es ps
  (charAt buf s != 0 && toks.contains (charAt buf s), s)

/-- An argument is written through the pointer to the `execcmd` inside the redirections. -/
def Cmd.addArg {σ : Type} : Cmd σ → σ → Cmd σ
  | execcmd argv, a => execcmd (argv ++ [a])
  | redircmd cmd file mode fd, a => redircmd (cmd.addArg a) file mode fd
  | cmd, _ => cmd

section

variable (buf : List UInt8) (es : Nat)

/-- `parseredirs`. -/
def parseredirs : Nat → Cmd Span → Nat → Except Err (Cmd Span × Nat)
  | 0, _, _ => .error .turns
  | turns + 1, cmd, ps =>
    let p := peek buf es ps [chr '<', chr '>']
    if p.1 then
      let tok := gettoken buf es p.2
      let file := gettoken buf es tok.ps
      if file.ret ≠ chr 'a' then .error .missingFile
      else if tok.ret = chr '<' then
        parseredirs turns (.redircmd cmd (file.q, file.eq) 0 0) file.ps
      else if tok.ret = chr '>' then
        parseredirs turns
          (.redircmd cmd (file.q, file.eq) (oWronly ||| oCreate ||| oTrunc) 1) file.ps
      else if tok.ret = chr '+' then
        parseredirs turns (.redircmd cmd (file.q, file.eq) (oWronly ||| oCreate) 1) file.ps
      else parseredirs turns cmd file.ps
    else .ok (cmd, p.2)

/-- The loop of `parseexec` over the arguments. -/
def parseargs : Nat → Cmd Span → Nat → Nat → Except Err (Cmd Span × Nat)
  | 0, _, _, _ => .error .turns
  | turns + 1, ret, argc, ps =>
    let p := peek buf es ps [chr '|', chr ')', chr '&', chr ';']
    if p.1 then .ok (ret, p.2)
    else
      let tok := gettoken buf es p.2
      if tok.ret = 0 then .ok (ret, tok.ps)
      else if tok.ret ≠ chr 'a' then .error .badToken
      else if argc + 1 ≥ maxArgs then .error .tooManyArgs
      else do
        let r ← parseredirs buf es turns (ret.addArg (tok.q, tok.eq)) tok.ps
        parseargs turns r.1 (argc + 1) r.2

/-- The loop of `parseline` over `&`. -/
def parsebacks : Nat → Cmd Span → Nat → Except Err (Cmd Span × Nat)
  | 0, _, _ => .error .turns
  | turns + 1, cmd, ps =>
    let p := peek buf es ps [chr '&']
    if p.1 then parsebacks turns (.backcmd cmd) (gettoken buf es p.2).ps
    else .ok (cmd, p.2)

mutual

/-- `parseline`. -/
def parseline : Nat → Nat → Except Err (Cmd Span × Nat)
  | 0, _ => .error .turns
  | turns + 1, ps => do
    let r ← parsepipe turns ps
    let r ← parsebacks buf es turns r.1 r.2
    let p := peek buf es r.2 [chr ';']
    if p.1 then do
      let l ← parseline turns (gettoken buf es p.2).ps
      .ok (.listcmd r.1 l.1, l.2)
    else .ok (r.1, p.2)

/-- `parsepipe`. -/
def parsepipe : Nat → Nat → Except Err (Cmd Span × Nat)
  | 0, _ => .error .turns
  | turns + 1, ps => do
    let r ← parseexec turns ps
    let p := peek buf es r.2 [chr '|']
    if p.1 then do
      let l ← parsepipe turns (gettoken buf es p.2).ps
      .ok (.pipecmd r.1 l.1, l.2)
    else .ok (r.1, p.2)

/-- `parseexec`. -/
def parseexec : Nat → Nat → Except Err (Cmd Span × Nat)
  | 0, _ => .error .turns
  | turns + 1, ps =>
    let p := peek buf es ps [chr '(']
    if p.1 then parseblock turns p.2
    else do
      let r ← parseredirs buf es turns (.execcmd []) p.2
      parseargs buf es turns r.1 0 r.2

/-- `parseblock`. -/
def parseblock : Nat → Nat → Except Err (Cmd Span × Nat)
  | 0, _ => .error .turns
  | turns + 1, ps =>
    let p := peek buf es ps [chr '(']
    if p.1 then do
      let r ← parseline turns (gettoken buf es p.2).ps
      let p := peek buf es r.2 [chr ')']
      if p.1 then parseredirs buf es turns r.1 (gettoken buf es p.2).ps
      else .error .missingParen
    else .error .parseblock

end

end

/-- `nulterminate`: the line with a zero byte after every string of the command. -/
def nulterminate : Cmd Span → List UInt8 → List UInt8
  | .execcmd argv, buf => argv.foldl (fun buf a ↦ buf.set a.2 0) buf
  | .redircmd cmd file _ _, buf => (nulterminate cmd buf).set file.2 0
  | .pipecmd left right, buf => nulterminate right (nulterminate left buf)
  | .listcmd left right, buf => nulterminate right (nulterminate left buf)
  | .backcmd cmd, buf => nulterminate cmd buf

/-- `parsecmd`: the command, and the line after it has been marked. -/
def parsecmd (turns : Nat) (buf : List UInt8) : Except Err (Cmd Span × List UInt8) := do
  let es := strlen buf
  let r ← parseline buf es turns 0
  let p := peek buf es r.2 []
  if p.2 ≠ es then .error .leftovers else .ok (r.1, nulterminate r.1 buf)

/-- The string at a place of the line, up to the zero byte. -/
def cstring (buf : List UInt8) (q : Nat) : List UInt8 := (buf.drop q).takeWhile (· != 0)

end Xv6K210.Shell
