import Mathlib.Logic.Function.Iterate
import Xv6K210.Shell.Parser

/-!
# The language of the shell

Command trees, and the lines that are written for a tree: tokens by the grammar of the
shell, with parentheses wherever they are wanted, and any white space between the tokens.
-/

namespace Xv6K210.Shell

/-- A word: characters that are neither white space nor symbols nor zero. -/
structure Word where
  chars : List UInt8
  nonempty : chars ≠ []
  plain : ∀ c ∈ chars, plain c = true ∧ c ≠ 0

/-- The three redirections `<`, `>` and `>>`. -/
inductive Mode where
  | read | write | append
  deriving DecidableEq, Repr

/-- The flags that the file of a redirection is opened with. -/
def Mode.flags : Mode → Nat
  | read => 0
  | write => oWronly ||| oCreate ||| oTrunc
  | append => oWronly ||| oCreate

/-- The descriptor that a redirection replaces. -/
def Mode.fd : Mode → Nat
  | read => 0
  | write => 1
  | append => 1

/-- The command trees of the shell. -/
inductive Tree where
  | exec (words : List Word)
  | redir (tree : Tree) (mode : Mode) (file : Word)
  | pipe (left right : Tree)
  | list (left right : Tree)
  | back (tree : Tree)

/-- A tree as the shell represents it, with characters for strings. -/
def Tree.cmd : Tree → Cmd (List UInt8)
  | exec words => .execcmd (words.map Word.chars)
  | redir tree mode file => .redircmd tree.cmd file.chars mode.flags mode.fd
  | pipe left right => .pipecmd left.cmd right.cmd
  | list left right => .listcmd left.cmd right.cmd
  | back tree => .backcmd tree.cmd

/-- No command has more than nine words. -/
def Tree.Fits : Tree → Prop
  | exec words => words.length ≤ 9
  | redir tree _ _ => tree.Fits
  | pipe left right => left.Fits ∧ right.Fits
  | list left right => left.Fits ∧ right.Fits
  | back tree => tree.Fits

/-! ## Tokens -/

/-- The tokens of a line. -/
inductive Token where
  | word (w : Word)
  | lt | gt | gtgt | bar | amp | semi | lpar | rpar

/-- The characters of a token. -/
def Token.chars : Token → List UInt8
  | word w => w.chars
  | lt => [chr '<']
  | gt => [chr '>']
  | gtgt => [chr '>', chr '>']
  | bar => [chr '|']
  | amp => [chr '&']
  | semi => [chr ';']
  | lpar => [chr '(']
  | rpar => [chr ')']

/-- Where a token ends: no character that would prolong it may follow. -/
def Token.Ends (t : Token) (rest : List UInt8) : Prop :=
  match t with
  | word _ => ∀ c, rest.head? = some c → Shell.plain c = false
  | gt => rest.head? ≠ some (chr '>')
  | _ => True

/-- The lines that consist of some tokens, with white space before, between and after
them. -/
inductive Spaced : List Token → List UInt8 → Prop where
  | nil {ws : List UInt8} (hws : ∀ c ∈ ws, c ∈ whitespace) : Spaced [] ws
  | cons {ws rest : List UInt8} {t : Token} {ts : List Token} (hws : ∀ c ∈ ws, c ∈ whitespace)
      (hend : t.Ends rest) (h : Spaced ts rest) : Spaced (t :: ts) (ws ++ (t.chars ++ rest))

/-! ## Rendering -/

/-- The token of a redirection. -/
def Mode.token : Mode → Token
  | read => .lt
  | write => .gt
  | append => .gtgt

/-- The parts of a simple command: words, and redirections before, between and after them. -/
inductive Item where
  | word (w : Word)
  | redir (mode : Mode) (file : Word)

/-- The tokens of a part. -/
def Item.tokens : Item → List Token
  | word w => [.word w]
  | redir mode file => [mode.token, .word file]

/-- The words among the parts. -/
def words : List Item → List Word
  | [] => []
  | .word w :: items => w :: words items
  | .redir _ _ :: items => words items

/-- The redirections among the parts, wrapped around a tree: the first one is innermost. -/
def wrap : Tree → List Item → Tree
  | tree, [] => tree
  | tree, .word _ :: items => wrap tree items
  | tree, .redir mode file :: items => wrap (.redir tree mode file) items

/-- The three levels of the grammar. -/
inductive Level where
  | exec | pipe | line
  deriving DecidableEq, Repr

/-- The tokens that are written for a tree. A command in parentheses may stand wherever a
simple command may. -/
inductive Renders : Level → Tree → List Token → Prop where
  | simple (items : List Item) :
      Renders .exec (wrap (.exec (words items)) items) (items.flatMap Item.tokens)
  | block {tree : Tree} {ts : List Token} (redirs : List (Mode × Word))
      (h : Renders .line tree ts) :
      Renders .exec (wrap tree (redirs.map fun r ↦ .redir r.1 r.2))
        (.lpar :: (ts ++ .rpar :: redirs.flatMap fun r ↦ [r.1.token, .word r.2]))
  | single {tree : Tree} {ts : List Token} (h : Renders .exec tree ts) : Renders .pipe tree ts
  | pipe {left right : Tree} {ts ts' : List Token} (h : Renders .exec left ts)
      (h' : Renders .pipe right ts') : Renders .pipe (.pipe left right) (ts ++ .bar :: ts')
  | backs {tree : Tree} {ts : List Token} (n : Nat) (h : Renders .pipe tree ts) :
      Renders .line (Tree.back^[n] tree) (ts ++ List.replicate n Token.amp)
  | list {left right : Tree} {ts ts' : List Token} (n : Nat) (h : Renders .pipe left ts)
      (h' : Renders .line right ts') :
      Renders .line (.list (Tree.back^[n] left) right)
        (ts ++ (List.replicate n Token.amp ++ .semi :: ts'))

/-! ## Every tree can be written -/

private theorem wrap_words (tree : Tree) (ws : List Word) (items : List Item) :
    wrap tree (ws.map .word ++ items) = wrap tree items := by
  induction ws with
  | nil => rfl
  | cons w ws ih => exact ih

private theorem words_map (ws : List Word) : words (ws.map .word) = ws := by
  induction ws with
  | nil => rfl
  | cons w ws ih => rw [List.map_cons, words, ih]

/-- A tree that is written as a command can be written as a line. -/
theorem Renders.line {tree : Tree} {ts : List Token} (h : Renders .exec tree ts) :
    Renders .line tree ts := by
  have hline := Renders.backs 0 (.single h)
  rwa [List.replicate_zero, List.append_nil] at hline

/-- Every tree can be written as a command. -/
theorem exists_renders (tree : Tree) : ∃ ts, Renders .exec tree ts := by
  induction tree with
  | exec ws =>
    have h := Renders.simple (ws.map .word)
    have hwrap := wrap_words (.exec ws) ws []
    rw [List.append_nil] at hwrap
    rw [words_map, hwrap] at h
    exact ⟨_, h⟩
  | redir tree mode file ih =>
    obtain ⟨ts, h⟩ := ih
    exact ⟨_, .block [(mode, file)] h.line⟩
  | pipe left right ihl ihr =>
    obtain ⟨ts, h⟩ := ihl
    obtain ⟨ts', h'⟩ := ihr
    have hline := Renders.backs 0 (.pipe h (.single h'))
    exact ⟨_, .block [] hline⟩
  | list left right ihl ihr =>
    obtain ⟨ts, h⟩ := ihl
    obtain ⟨ts', h'⟩ := ihr
    exact ⟨_, .block [] (.list 0 (.single h) h'.line)⟩
  | back tree ih =>
    obtain ⟨ts, h⟩ := ih
    exact ⟨_, .block [] (.backs 1 (.single h))⟩

/-- Tokens can be written with a blank before each of them. -/
theorem exists_spaced (ts : List Token) :
    ∃ text, Spaced ts text ∧ ∀ c, text.head? = some c → c = chr ' ' := by
  induction ts with
  | nil => exact ⟨[], .nil nofun, nofun⟩
  | cons t ts ih =>
    obtain ⟨rest, h, hhead⟩ := ih
    have hend : t.Ends rest := by
      cases t with
      | word w =>
        intro c hc
        rw [hhead c hc]
        decide
      | gt =>
        intro hc
        exact absurd (hhead _ hc) (by decide)
      | lt | gtgt | bar | amp | semi | lpar | rpar => trivial
    refine ⟨[chr ' '] ++ (t.chars ++ rest), .cons ?_ hend h, fun c hc ↦ (Option.some.inj hc).symm⟩
    intro c hc
    rw [List.mem_singleton.mp hc]
    decide

end Xv6K210.Shell
