import Xv6K210.Shell.Scanner

/-!
# Parsing what was rendered

Every line that is written for a command tree is parsed to that tree, and after the marks
have been set every string of the command is the word that was written. The parser is
followed along the derivation of the line; the tokens that may follow a level of the grammar
are where the functions of that level stop.
-/

namespace Xv6K210.Shell

/-! ## Commands and their strings -/

namespace Cmd

variable {σ τ : Type}

/-- A command with other strings. -/
def map (f : σ → τ) : Cmd σ → Cmd τ
  | execcmd argv => .execcmd (argv.map f)
  | redircmd cmd file mode fd => .redircmd (cmd.map f) (f file) mode fd
  | pipecmd left right => .pipecmd (left.map f) (right.map f)
  | listcmd left right => .listcmd (left.map f) (right.map f)
  | backcmd cmd => .backcmd (cmd.map f)

/-- The strings of a command. -/
def strings : Cmd σ → List σ
  | execcmd argv => argv
  | redircmd cmd file _ _ => cmd.strings ++ [file]
  | pipecmd left right => left.strings ++ right.strings
  | listcmd left right => left.strings ++ right.strings
  | backcmd cmd => cmd.strings

private theorem map_addArg (f : σ → τ) (c : Cmd σ) (a : σ) :
    (c.addArg a).map f = (c.map f).addArg (f a) := by
  induction c with
  | execcmd argv => simp [addArg, map]
  | redircmd cmd file mode fd ih => rw [addArg, map, ih, map, addArg]
  | pipecmd | listcmd | backcmd => rfl

private theorem mem_strings_addArg {c : Cmd σ} {a p : σ} (h : p ∈ (c.addArg a).strings) :
    p ∈ c.strings ∨ p = a := by
  induction c with
  | execcmd argv =>
    rcases List.mem_append.mp h with h | h
    · exact .inl h
    · exact .inr (List.mem_singleton.mp h)
  | redircmd cmd file mode fd ih =>
    rcases List.mem_append.mp h with h | h
    · exact (ih h).imp_left fun hc ↦ List.mem_append_left _ hc
    · exact .inl (List.mem_append_right _ h)
  | pipecmd | listcmd | backcmd => exact .inl h

/-- Only the strings of a command matter for its image. -/
theorem map_congr {f g : σ → τ} (c : Cmd σ) (h : ∀ p ∈ c.strings, f p = g p) :
    c.map f = c.map g := by
  induction c with
  | execcmd argv => exact congrArg execcmd (List.map_congr_left h)
  | redircmd cmd file mode fd ih =>
    rw [map, map, ih fun p hp ↦ h p (List.mem_append_left _ hp),
      h file (List.mem_append_right _ (List.mem_singleton.mpr rfl))]
  | pipecmd left right ihl ihr | listcmd left right ihl ihr =>
    rw [map, map, ihl fun p hp ↦ h p (List.mem_append_left _ hp),
      ihr fun p hp ↦ h p (List.mem_append_right _ hp)]
  | backcmd cmd ih => rw [map, map, ih h]

end Cmd

/-- A parsed command stands for a tree: its spans are the words of the tree. -/
structure Represents (buf : List UInt8) (c : Cmd Span) (tree : Tree) : Prop where
  eq : c.map (slice buf) = tree.cmd
  spans : ∀ p ∈ c.strings, WordSpan buf p

/-- A word more for the command inside the redirections. -/
def Tree.addWord : Tree → Word → Tree
  | exec words, w => exec (words ++ [w])
  | redir tree mode file, w => redir (tree.addWord w) mode file
  | tree, _ => tree

private theorem Tree.cmd_addWord (tree : Tree) (w : Word) :
    (tree.addWord w).cmd = tree.cmd.addArg w.chars := by
  induction tree with
  | exec words => simp [addWord, cmd, Cmd.addArg]
  | redir tree mode file ih => rw [addWord, cmd, ih, cmd, Cmd.addArg]
  | pipe | list | back => rfl

namespace Represents

variable {buf : List UInt8} {c c' : Cmd Span} {tree tree' : Tree} {p : Span} {w : Word}

/-- The empty command. -/
theorem empty : Represents buf (.execcmd []) (.exec []) := ⟨rfl, nofun⟩

/-- One more word. -/
theorem addArg (h : Represents buf c tree) (hp : slice buf p = w.chars) (hs : WordSpan buf p) :
    Represents buf (c.addArg p) (tree.addWord w) where
  eq := by rw [Cmd.map_addArg, h.eq, hp, tree.cmd_addWord]
  spans := fun q hq ↦ by
    rcases Cmd.mem_strings_addArg hq with hq | rfl
    · exact h.spans q hq
    · exact hs

/-- A redirection around a command. -/
theorem redir (h : Represents buf c tree) (mode : Mode) (hp : slice buf p = w.chars)
    (hs : WordSpan buf p) :
    Represents buf (.redircmd c p mode.flags mode.fd) (.redir tree mode w) where
  eq := by rw [Cmd.map, h.eq, hp]; rfl
  spans := fun q hq ↦ by
    rcases List.mem_append.mp hq with hq | hq
    · exact h.spans q hq
    · exact List.mem_singleton.mp hq ▸ hs

/-- A pipe of two commands. -/
theorem pipe (h : Represents buf c tree) (h' : Represents buf c' tree') :
    Represents buf (.pipecmd c c') (.pipe tree tree') where
  eq := by rw [Cmd.map, h.eq, h'.eq]; rfl
  spans := fun q hq ↦ (List.mem_append.mp hq).elim (h.spans q) (h'.spans q)

/-- A list of two commands. -/
theorem list (h : Represents buf c tree) (h' : Represents buf c' tree') :
    Represents buf (.listcmd c c') (.list tree tree') where
  eq := by rw [Cmd.map, h.eq, h'.eq]; rfl
  spans := fun q hq ↦ (List.mem_append.mp hq).elim (h.spans q) (h'.spans q)

/-- A command in the background. -/
theorem back (h : Represents buf c tree) : Represents buf (.backcmd c) (.back tree) where
  eq := by rw [Cmd.map, h.eq]; rfl
  spans := h.spans

end Represents

/-! ## The parts of a simple command -/

/-- A part is added to a command: a word inside, a redirection outside. -/
def Tree.add (tree : Tree) : Item → Tree
  | .word w => tree.addWord w
  | .redir mode file => .redir tree mode file

private theorem Tree.addWords_redir (tree : Tree) (mode : Mode) (file : Word) (ws : List Word) :
    ws.foldl Tree.addWord (.redir tree mode file) =
      .redir (ws.foldl Tree.addWord tree) mode file := by
  induction ws generalizing tree with
  | nil => rfl
  | cons w ws ih => exact ih (tree.addWord w)

private theorem Tree.addWords_exec (as ws : List Word) :
    ws.foldl Tree.addWord (.exec as) = .exec (as ++ ws) := by
  induction ws generalizing as with
  | nil => rw [List.append_nil]; rfl
  | cons w ws ih =>
    rw [List.foldl_cons, addWord, ih, List.append_assoc, List.singleton_append]

/-- Parts that are added one by one: the words go inside, the redirections are wrapped
around. -/
theorem Tree.foldl_add (tree : Tree) (items : List Item) :
    items.foldl Tree.add tree = wrap ((words items).foldl Tree.addWord tree) items := by
  induction items generalizing tree with
  | nil => rfl
  | cons item items ih =>
    cases item with
    | word w => exact ih (tree.addWord w)
    | redir mode file =>
      rw [List.foldl_cons, add, ih, words, wrap, Tree.addWords_redir]

private theorem Tree.fits_of_wrap (tree : Tree) (items : List Item) (h : (wrap tree items).Fits) :
    tree.Fits := by
  induction items generalizing tree with
  | nil => exact h
  | cons item items ih =>
    cases item with
    | word w => exact ih tree h
    | redir mode file => exact ih (.redir tree mode file) h

/-! ## What may follow -/

/-- The tokens that end a level of the grammar. -/
def Level.Ends : Level → Token → Prop
  | .exec, t => t = .bar ∨ t = .amp ∨ t = .semi ∨ t = .rpar
  | .pipe, t => t = .amp ∨ t = .semi ∨ t = .rpar
  | .line, t => t = .rpar

/-- The next token, if there is one, ends the level. -/
def Level.Follows (l : Level) (ts : List Token) : Prop := ∀ t, ts.head? = some t → l.Ends t

namespace Level.Follows

variable {ts : List Token}

/-- What may follow a line may follow a pipe. -/
theorem pipe (h : Level.line.Follows ts) : Level.pipe.Follows ts :=
  fun t ht ↦ .inr (.inr (h t ht))

/-- What may follow a pipe may follow a command. -/
theorem exec (h : Level.pipe.Follows ts) : Level.exec.Follows ts := fun t ht ↦ .inr (h t ht)

/-- After a simple command comes no redirection and no parenthesis. -/
theorem not_redir (h : Level.exec.Follows ts) :
    startsIn [chr '<', chr '>'] ts = false ∧ startsIn [chr '('] ts = false := by
  cases ts with
  | nil => exact ⟨rfl, rfl⟩
  | cons t ts => rcases h t rfl with rfl | rfl | rfl | rfl <;> exact ⟨rfl, rfl⟩

/-- The loop over the arguments ends after a simple command. -/
theorem stops (h : Level.exec.Follows ts) :
    ts = [] ∨ startsIn [chr '|', chr ')', chr '&', chr ';'] ts = true := by
  cases ts with
  | nil => exact .inl rfl
  | cons t ts => rcases h t rfl with rfl | rfl | rfl | rfl <;> exact .inr rfl

private theorem not_bar (h : Level.pipe.Follows ts) : startsIn [chr '|'] ts = false := by
  cases ts with
  | nil => rfl
  | cons t ts => rcases h t rfl with rfl | rfl | rfl <;> rfl

private theorem not_sep (h : Level.line.Follows ts) :
    startsIn [chr '&'] ts = false ∧ startsIn [chr ';'] ts = false := by
  cases ts with
  | nil => exact ⟨rfl, rfl⟩
  | cons t ts =>
    have ht : t = .rpar := h t rfl
    subst ht
    exact ⟨rfl, rfl⟩

end Level.Follows

/-- No word starts with a symbol. -/
theorem startsIn_word (w : Word) (ts : List Token) (toks : List UInt8)
    (h : ∀ c ∈ toks, c ∈ symbols) : startsIn toks (.word w :: ts) = false := by
  refine Bool.eq_false_iff.mpr fun hs ↦ ?_
  exact w.first_spec.2.1 (h _ (List.contains_iff_mem.mp hs))

/-! ## The functions of the parser -/

/-- A function of the parser reads a tree and leaves the given tokens, with any number of
turns that is large enough. -/
def Parses (text : List UInt8) (f : Nat → Except Err (Cmd Span × Nat)) (tree : Tree)
    (rest : List Token) : Prop :=
  ∃ least c s, (∀ turns, least ≤ turns → f turns = .ok (c, s)) ∧
    Represents (text ++ [0]) c tree ∧ Lexes text s rest

section Functions

variable {text : List UInt8} {s : Nat} {c : Cmd Span} {tree : Tree} {ts rest : List Token}

/-- `parseredirs` takes a redirection. -/
theorem parseredirs_step {mode : Mode} {file : Word}
    (h : Lexes text s (mode.token :: .word file :: ts)) :
    ∃ p s', slice (text ++ [0]) p = file.chars ∧ WordSpan (text ++ [0]) p ∧ Lexes text s' ts ∧
      ∀ turns c, parseredirs (text ++ [0]) text.length (turns + 1) c s =
        parseredirs (text ++ [0]) text.length turns (.redircmd c p mode.flags mode.fd) s' := by
  have hpeek := h.peek [chr '<', chr '>']
  have htok := h.skip.gettoken
  have hfile := htok.2.1.gettoken
  have hw := hfile.2.2 file rfl
  refine ⟨_, _, hw.1, hw.2, hfile.2.1, fun turns c ↦ ?_⟩
  have hstarts : startsIn [chr '<', chr '>'] (mode.token :: .word file :: ts) = true := by
    cases mode <;> rfl
  have ha : (Shell.gettoken (text ++ [0]) text.length (Shell.gettoken (text ++ [0]) text.length
      (skipWhite (text ++ [0]) text.length s)).ps).ret = chr 'a' := hfile.1
  rw [parseredirs, hpeek, hstarts]
  dsimp only
  rw [if_pos rfl, ha, htok.1]
  cases mode <;> rfl

/-- `parseredirs` stops before anything else. -/
theorem parseredirs_stop (h : Lexes text s ts) (hts : startsIn [chr '<', chr '>'] ts = false)
    (turns : Nat) (c : Cmd Span) :
    parseredirs (text ++ [0]) text.length (turns + 1) c s =
      .ok (c, skipWhite (text ++ [0]) text.length s) := by
  rw [parseredirs, h.peek, hts]
  rfl

/-- `parseredirs` takes the redirections after a block. -/
theorem parses_redirs (redirs : List (Mode × Word))
    (h : Lexes text s ((redirs.flatMap fun r ↦ [r.1.token, .word r.2]) ++ rest))
    (hrest : startsIn [chr '<', chr '>'] rest = false) (hc : Represents (text ++ [0]) c tree) :
    Parses text (fun turns ↦ parseredirs (text ++ [0]) text.length turns c s)
      (wrap tree (redirs.map fun r ↦ .redir r.1 r.2)) rest := by
  induction redirs generalizing c s tree with
  | nil =>
    refine ⟨1, c, _, fun turns hturns ↦ ?_, hc, h.skip⟩
    obtain ⟨k, rfl⟩ := Nat.exists_eq_add_of_le' hturns
    exact parseredirs_stop h hrest k c
  | cons r redirs ih =>
    obtain ⟨p, s', hp, hs, hlex, hstep⟩ := parseredirs_step h
    obtain ⟨least, c', s'', hrun, hres⟩ := ih hlex (hc.redir r.1 hp hs)
    refine ⟨least + 1, c', s'', fun turns hturns ↦ ?_, hres⟩
    obtain ⟨k, rfl⟩ := Nat.exists_eq_add_of_le' (Nat.le_of_add_left_le hturns)
    exact (hstep k c).trans (hrun k (by omega))

/-- `parseredirs` and the loop over the arguments take the parts of a simple command. -/
theorem parses_items (items : List Item) (argc : Nat)
    (h : Lexes text s (items.flatMap Item.tokens ++ rest)) (hrest : Level.exec.Follows rest)
    (hargc : argc + (words items).length ≤ 9) (hc : Represents (text ++ [0]) c tree) :
    ∃ least c' s', (∀ n m, least ≤ n → least ≤ m →
        (parseredirs (text ++ [0]) text.length n c s >>= fun r ↦
          parseargs (text ++ [0]) text.length m r.1 argc r.2) = .ok (c', s')) ∧
      Represents (text ++ [0]) c' (items.foldl Tree.add tree) ∧ Lexes text s' rest := by
  induction items generalizing c s tree argc with
  | nil =>
    have h : Lexes text s rest := h
    have hskip := h.skip
    have hpeek := hskip.peek [chr '|', chr ')', chr '&', chr ';']
    rcases hrest.stops with rfl | hstop
    · have hend := hskip.skip.gettoken_nil
      refine ⟨1, c, _, fun n m hn hm ↦ ?_, hc, hend.2⟩
      obtain ⟨n, rfl⟩ := Nat.exists_eq_add_of_le' hn
      obtain ⟨m, rfl⟩ := Nat.exists_eq_add_of_le' hm
      rw [parseredirs_stop h rfl n c]
      change parseargs _ _ (m + 1) c argc _ = _
      rw [parseargs, hpeek]
      dsimp only
      rw [if_neg (by exact Bool.false_ne_true), hend.1, if_pos rfl]
    · refine ⟨1, c, _, fun n m hn hm ↦ ?_, hc, hskip.skip⟩
      obtain ⟨n, rfl⟩ := Nat.exists_eq_add_of_le' hn
      obtain ⟨m, rfl⟩ := Nat.exists_eq_add_of_le' hm
      rw [parseredirs_stop h hrest.not_redir.1 n c]
      change parseargs _ _ (m + 1) c argc _ = _
      rw [parseargs, hpeek]
      dsimp only
      rw [if_pos hstop]
  | cons item items ih =>
    cases item with
    | redir mode file =>
      obtain ⟨p, s', hp, hs, hlex, hstep⟩ := parseredirs_step h
      obtain ⟨least, c', s'', hrun, hres⟩ := ih argc hlex hargc (hc.redir mode hp hs)
      refine ⟨least + 1, c', s'', fun n m hn hm ↦ ?_, hres⟩
      obtain ⟨n, rfl⟩ := Nat.exists_eq_add_of_le' (Nat.le_of_add_left_le hn)
      rw [hstep]
      exact hrun n m (by omega) (by omega)
    | word w =>
      have hskip := h.skip
      have hpeek := hskip.peek [chr '|', chr ')', chr '&', chr ';']
      have htok := hskip.skip.gettoken
      have hw := htok.2.2 w rfl
      obtain ⟨least, c', s'', hrun, hres⟩ := ih (argc + 1) htok.2.1
        (by rw [words, List.length_cons] at hargc; omega) (hc.addArg hw.1 hw.2)
      refine ⟨least + 1, c', s'', fun n m hn hm ↦ ?_, hres⟩
      obtain ⟨n, rfl⟩ := Nat.exists_eq_add_of_le' (Nat.le_of_add_left_le hn)
      obtain ⟨m, rfl⟩ := Nat.exists_eq_add_of_le' (Nat.le_of_add_left_le hm)
      have hnone : startsIn [chr '<', chr '>'] (.word w :: (items.flatMap Item.tokens ++ rest)) =
          false := startsIn_word w _ _ (by decide +kernel)
      have hnone' : startsIn [chr '|', chr ')', chr '&', chr ';']
          (.word w :: (items.flatMap Item.tokens ++ rest)) = false :=
        startsIn_word w _ _ (by decide +kernel)
      have hfew : ¬ argc + 1 ≥ maxArgs := by
        rw [words, List.length_cons] at hargc
        unfold maxArgs
        omega
      rw [parseredirs_stop h hnone n c]
      change parseargs _ _ (m + 1) c argc _ = _
      rw [parseargs, hpeek]
      dsimp only
      have hret : ¬ (Token.word w).ret = 0 := by
        change ¬ chr 'a' = 0
        decide
      rw [if_neg (by exact Bool.eq_false_iff.mp hnone'), htok.1, if_neg hret,
        if_neg (fun h ↦ h rfl), if_neg hfew]
      exact hrun m m (by omega) (by omega)

/-- The loop over `&`. -/
theorem parses_backs (n : Nat) (h : Lexes text s (List.replicate n Token.amp ++ rest))
    (hrest : startsIn [chr '&'] rest = false) (hc : Represents (text ++ [0]) c tree) :
    Parses text (fun turns ↦ parsebacks (text ++ [0]) text.length turns c s)
      (Tree.back^[n] tree) rest := by
  induction n generalizing c s tree with
  | zero =>
    refine ⟨1, c, _, fun turns hturns ↦ ?_, hc, h.skip⟩
    obtain ⟨k, rfl⟩ := Nat.exists_eq_add_of_le' hturns
    have hpeek := h.peek [chr '&']
    change parsebacks _ _ (k + 1) c s = _
    rw [parsebacks, hpeek]
    dsimp only
    rw [if_neg (by exact Bool.eq_false_iff.mp hrest)]
  | succ n ih =>
    have htok := h.skip.gettoken
    obtain ⟨least, c', s', hrun, hres⟩ := ih htok.2.1 hc.back
    refine ⟨least + 1, c', s', fun turns hturns ↦ ?_, hres⟩
    obtain ⟨k, rfl⟩ := Nat.exists_eq_add_of_le' (Nat.le_of_add_left_le hturns)
    have hpeek := h.peek [chr '&']
    change parsebacks _ _ (k + 1) c s = _
    rw [parsebacks, hpeek]
    dsimp only
    rw [if_pos (by rfl)]
    exact hrun k (by omega)

end Functions

/-! ## The levels of the grammar -/

/-- The function of a level. -/
def parseLevel (text : List UInt8) (l : Level) (s turns : Nat) : Except Err (Cmd Span × Nat) :=
  match l with
  | .exec => parseexec (text ++ [0]) text.length turns s
  | .pipe => parsepipe (text ++ [0]) text.length turns s
  | .line => parseline (text ++ [0]) text.length turns s

/-- The separators after a pipeline end it. -/
theorem follows_backs {n : Nat} {ts : List Token} (h : Level.pipe.Follows ts) :
    Level.pipe.Follows (List.replicate n Token.amp ++ ts) := by
  cases n with
  | zero => exact h
  | succ n =>
    intro t ht
    exact .inl (Option.some.inj ht).symm

private theorem fits_backs {n : Nat} {tree : Tree} (h : (Tree.back^[n] tree).Fits) : tree.Fits := by
  induction n generalizing tree with
  | zero => exact h
  | succ n ih =>
    have hback : (Tree.back tree).Fits := ih h
    exact hback

/-- Every level reads what is written at that level. -/
theorem Renders.parses {l : Level} {tree : Tree} {ts : List Token} (h : Renders l tree ts)
    (hfits : tree.Fits) {text : List UInt8} {s : Nat} {rest : List Token}
    (hlex : Lexes text s (ts ++ rest)) (hrest : l.Follows rest) :
    Parses text (parseLevel text l s) tree rest := by
  induction h generalizing s rest with
  | simple items =>
    have hfew : (words items).length ≤ 9 := Tree.fits_of_wrap _ items hfits
    have hopen : startsIn [chr '('] (items.flatMap Item.tokens ++ rest) = false := by
      cases items with
      | nil => exact hrest.not_redir.2
      | cons item items =>
        cases item with
        | word w => exact startsIn_word w _ _ (by decide +kernel)
        | redir mode file => cases mode <;> rfl
    obtain ⟨least, c, s', hrun, hc, hlex'⟩ := parses_items items 0 hlex.skip hrest
      (by rw [Nat.zero_add]; exact hfew) Represents.empty
    rw [Tree.foldl_add, Tree.addWords_exec] at hc
    refine ⟨least + 1, c, s', fun turns hturns ↦ ?_, hc, hlex'⟩
    obtain ⟨k, rfl⟩ := Nat.exists_eq_add_of_le' (Nat.le_of_add_left_le hturns)
    have hpeek := hlex.peek [chr '(']
    rw [parseLevel, parseexec, hpeek]
    dsimp only
    rw [if_neg (by exact Bool.eq_false_iff.mp hopen)]
    exact hrun k k (by omega) (by omega)
  | @block tree ts redirs hline ih =>
    have hlex : Lexes text s (.lpar :: (ts ++ (.rpar ::
        ((redirs.flatMap fun r ↦ [r.1.token, .word r.2]) ++ rest)))) := by
      rw [List.cons_append, List.append_assoc] at hlex
      exact hlex
    have hlpar := hlex.skip.skip.gettoken
    obtain ⟨least, c, s', hrun, hc, hlex'⟩ := ih (Tree.fits_of_wrap _ _ hfits) hlpar.2.1
      (fun t ht ↦ (Option.some.inj ht).symm)
    have hrpar := hlex'.skip.gettoken
    obtain ⟨least', c', s'', hrun', hres⟩ :=
      parses_redirs redirs hrpar.2.1 hrest.not_redir.1 hc
    refine ⟨max least least' + 2, c', s'', fun turns hturns ↦ ?_, hres⟩
    obtain ⟨k, rfl⟩ := Nat.exists_eq_add_of_le' (Nat.le_of_add_left_le hturns)
    have hline : parseline (text ++ [0]) text.length k _ = .ok (c, s') := hrun k (by omega)
    have hopen := hlex.peek [chr '(']
    have hopen' := hlex.skip.peek [chr '(']
    have hclose := hlex'.peek [chr ')']
    rw [parseLevel, parseexec, hopen]
    change parseblock _ _ (k + 1) _ = _
    rw [parseblock, hopen']
    dsimp only
    rw [if_pos (by rfl), hline]
    change (if (peek (text ++ [0]) text.length s' [chr ')']).1 = true then _ else _) = _
    rw [hclose]
    exact hrun' k (by omega)
  | single h ih =>
    obtain ⟨least, c, s', hrun, hc, hlex'⟩ := ih hfits hlex hrest.exec
    refine ⟨least + 1, c, _, fun turns hturns ↦ ?_, hc, hlex'.skip⟩
    obtain ⟨k, rfl⟩ := Nat.exists_eq_add_of_le' (Nat.le_of_add_left_le hturns)
    have hexec : parseexec (text ++ [0]) text.length k s = .ok (c, s') := hrun k (by omega)
    have hpeek := hlex'.peek [chr '|']
    rw [parseLevel, parsepipe, hexec]
    change (if (peek (text ++ [0]) text.length s' [chr '|']).1 = true then _ else _) = _
    rw [hpeek]
    dsimp only
    rw [if_neg (by exact Bool.eq_false_iff.mp hrest.not_bar)]
  | @pipe left right ts ts' h h' ih ih' =>
    have hlex : Lexes text s (ts ++ (.bar :: (ts' ++ rest))) := by
      rw [List.append_assoc] at hlex
      exact hlex
    obtain ⟨least, c, s', hrun, hc, hlex'⟩ := ih hfits.1 hlex
      (fun t ht ↦ .inl (Option.some.inj ht).symm)
    have hbar := hlex'.skip.gettoken
    obtain ⟨least', c', s'', hrun', hc', hlex''⟩ := ih' hfits.2 hbar.2.1 hrest
    refine ⟨max least least' + 1, _, s'', fun turns hturns ↦ ?_, hc.pipe hc', hlex''⟩
    obtain ⟨k, rfl⟩ := Nat.exists_eq_add_of_le' (Nat.le_of_add_left_le hturns)
    have hexec : parseexec (text ++ [0]) text.length k s = .ok (c, s') := hrun k (by omega)
    have hpipe : parsepipe (text ++ [0]) text.length k _ = .ok (c', s'') := hrun' k (by omega)
    have hpeek := hlex'.peek [chr '|']
    rw [parseLevel, parsepipe, hexec]
    change (if (peek (text ++ [0]) text.length s' [chr '|']).1 = true then _ else _) = _
    rw [hpeek]
    dsimp only
    rw [if_pos (by rfl), hpipe]
    rfl
  | @backs tree ts n h ih =>
    have hlex : Lexes text s (ts ++ (List.replicate n Token.amp ++ rest)) := by
      rw [List.append_assoc] at hlex
      exact hlex
    obtain ⟨least, c, s', hrun, hc, hlex'⟩ := ih (fits_backs hfits) hlex
      (follows_backs hrest.pipe)
    obtain ⟨least', c', s'', hrun', hc', hlex''⟩ := parses_backs n hlex' hrest.not_sep.1 hc
    refine ⟨max least least' + 1, c', _, fun turns hturns ↦ ?_, hc', hlex''.skip⟩
    obtain ⟨k, rfl⟩ := Nat.exists_eq_add_of_le' (Nat.le_of_add_left_le hturns)
    have hpipe : parsepipe (text ++ [0]) text.length k s = .ok (c, s') := hrun k (by omega)
    have hbacks : parsebacks (text ++ [0]) text.length k c s' = .ok (c', s'') :=
      hrun' k (by omega)
    have hpeek := hlex''.peek [chr ';']
    rw [parseLevel, parseline, hpipe]
    change (parsebacks _ _ k c s' >>= _) = _
    rw [hbacks]
    change (if (peek (text ++ [0]) text.length s'' [chr ';']).1 = true then _ else _) = _
    rw [hpeek]
    dsimp only
    rw [if_neg (by exact Bool.eq_false_iff.mp hrest.not_sep.2)]
  | @list left right ts ts' n h h' ih ih' =>
    have hlex : Lexes text s (ts ++ (List.replicate n Token.amp ++ (.semi :: (ts' ++ rest)))) := by
      rw [List.append_assoc, List.append_assoc] at hlex
      exact hlex
    have hsemi : Level.pipe.Follows (.semi :: (ts' ++ rest)) :=
      fun t ht ↦ .inr (.inl (Option.some.inj ht).symm)
    obtain ⟨least, c, s', hrun, hc, hlex'⟩ := ih (fits_backs hfits.1) hlex
      (follows_backs hsemi)
    obtain ⟨least', c', s'', hrun', hc', hlex''⟩ := parses_backs n hlex' rfl hc
    have htok := hlex''.skip.gettoken
    obtain ⟨least'', c'', s''', hrun'', hc'', hlex'''⟩ := ih' hfits.2 htok.2.1 hrest
    refine ⟨max (max least least') least'' + 1, _, s''', fun turns hturns ↦ ?_,
      hc'.list hc'', hlex'''⟩
    obtain ⟨k, rfl⟩ := Nat.exists_eq_add_of_le' (Nat.le_of_add_left_le hturns)
    have hpipe : parsepipe (text ++ [0]) text.length k s = .ok (c, s') := hrun k (by omega)
    have hbacks : parsebacks (text ++ [0]) text.length k c s' = .ok (c', s'') :=
      hrun' k (by omega)
    have hline : parseline (text ++ [0]) text.length k _ = .ok (c'', s''') :=
      hrun'' k (by omega)
    have hpeek := hlex''.peek [chr ';']
    rw [parseLevel, parseline, hpipe]
    change (parsebacks _ _ k c s' >>= _) = _
    rw [hbacks]
    change (if (peek (text ++ [0]) text.length s'' [chr ';']).1 = true then _ else _) = _
    rw [hpeek]
    dsimp only
    rw [if_pos (by rfl), hline]
    rfl

/-! ## The marks -/

/-- `nulterminate` writes a zero byte after every string. -/
theorem nulterminate_eq (c : Cmd Span) (buf : List UInt8) :
    nulterminate c buf = c.strings.foldl (fun buf p ↦ buf.set p.2 0) buf := by
  induction c generalizing buf with
  | execcmd argv => rfl
  | redircmd cmd file mode fd ih => rw [nulterminate, ih, Cmd.strings, List.foldl_append]; rfl
  | pipecmd left right ihl ihr | listcmd left right ihl ihr =>
    rw [nulterminate, ihl, ihr, Cmd.strings, List.foldl_append]
  | backcmd cmd ih => exact ih buf

/-- The marks change only the places after the strings, where they are zero. -/
theorem charAt_marked (ps : List Span) (buf : List UInt8) (i : Nat) :
    charAt (ps.foldl (fun buf p ↦ buf.set p.2 0) buf) i =
      if ∃ p ∈ ps, p.2 = i then 0 else charAt buf i := by
  induction ps generalizing buf with
  | nil => simp
  | cons p ps ih =>
    have hset : charAt (buf.set p.2 0) i = if p.2 = i then 0 else charAt buf i := by
      unfold charAt
      rw [List.getD_eq_getElem?_getD, List.getElem?_set, List.getD_eq_getElem?_getD]
      by_cases hp : p.2 = i
      · rw [if_pos hp, if_pos hp]
        split <;> rfl
      · rw [if_neg hp, if_neg hp]
    rw [List.foldl_cons, ih, hset]
    simp only [List.mem_cons, exists_eq_or_imp]
    by_cases hp : p.2 = i <;> by_cases hps : ∃ q ∈ ps, q.2 = i <;> simp [hp, hps]

private theorem length_marked (ps : List Span) (buf : List UInt8) :
    (ps.foldl (fun buf p ↦ buf.set p.2 0) buf).length = buf.length := by
  induction ps generalizing buf with
  | nil => rfl
  | cons p ps ih => rw [List.foldl_cons, ih, List.length_set]

/-- The string at a place is the characters up to the first zero byte. -/
theorem cstring_eq (buf : List UInt8) (q n : Nat) (hlen : q + n < buf.length)
    (hstop : charAt buf (q + n) = 0) (hne : ∀ i < n, charAt buf (q + i) ≠ 0) :
    cstring buf q = (buf.drop q).take n := by
  induction n generalizing q with
  | zero =>
    have hhead : (buf.drop q).head? = some 0 := by
      have hget : buf[q]? = some buf[q] := List.getElem?_eq_getElem (by omega)
      rw [List.head?_drop, hget]
      have h := hstop
      unfold charAt at h
      rw [Nat.add_zero, List.getD_eq_getElem?_getD, hget, Option.getD_some] at h
      rw [h]
    unfold cstring
    cases hd : buf.drop q with
    | nil => rfl
    | cons c cs =>
      rw [hd] at hhead
      rw [Option.some.inj hhead]
      rfl
  | succ n ih =>
    have hlt : q < buf.length := by omega
    have hcons : buf.drop q = buf[q] :: buf.drop (q + 1) := List.drop_eq_getElem_cons hlt
    have hget : charAt buf q = buf[q] := by
      unfold charAt
      rw [List.getD_eq_getElem?_getD, List.getElem?_eq_getElem hlt, Option.getD_some]
    have hq : (buf[q] != 0) = true := by
      have h := hne 0 (Nat.succ_pos n)
      rw [Nat.add_zero, hget] at h
      exact bne_iff_ne.mpr h
    have hnext := ih (q + 1) (by omega) (by rw [Nat.add_right_comm]; exact hstop)
      (fun i hi ↦ by
        have h := hne (i + 1) (by omega)
        rwa [Nat.add_comm i 1, ← Nat.add_assoc] at h)
    unfold cstring at hnext ⊢
    rw [hcons, List.takeWhile_cons, if_pos hq, hnext, List.take_succ_cons]

/-- After the marks every string of the command is the word of its span: no mark falls into
a word, and one stands at its end. -/
theorem cstring_nulterminate {buf : List UInt8} {c : Cmd Span}
    (hc : ∀ p ∈ c.strings, WordSpan buf p) {p : Span} (hp : p ∈ c.strings) :
    cstring (nulterminate c buf) p.1 = slice buf p := by
  have hword := hc p hp
  have hkeep : ∀ i, p.1 ≤ i → i < p.2 →
      charAt (nulterminate c buf) i = charAt buf i := fun i hi hlt ↦ by
    rw [nulterminate_eq, charAt_marked, if_neg]
    rintro ⟨r, hr, rfl⟩
    exact (hc r hr).stop (hword.plain _ hi hlt)
  have hlen : (nulterminate c buf).length = buf.length := by
    rw [nulterminate_eq, length_marked]
  obtain ⟨n, hn⟩ := Nat.exists_eq_add_of_le hword.order
  have hstop : charAt (nulterminate c buf) (p.1 + n) = 0 := by
    rw [nulterminate_eq, charAt_marked, if_pos ⟨p, hp, hn⟩]
  have hinside := hword.inside
  rw [cstring_eq _ p.1 n (by omega) hstop (fun i hi ↦ by
    rw [hkeep _ (by omega) (by omega)]
    exact (hword.plain _ (by omega) (by omega)).2)]
  unfold slice
  rw [hn, Nat.add_sub_cancel_left]
  apply List.ext_getElem?
  intro i
  by_cases hi : i < n
  · have h := hkeep (p.1 + i) (by omega) (by omega)
    unfold charAt at h
    rw [List.getElem?_take_of_lt hi, List.getElem?_take_of_lt hi, List.getElem?_drop,
      List.getElem?_drop]
    rw [List.getD_eq_getElem?_getD, List.getD_eq_getElem?_getD,
      List.getElem?_eq_getElem (by omega), List.getElem?_eq_getElem (by omega)] at h
    rw [List.getElem?_eq_getElem (by omega), List.getElem?_eq_getElem (by omega)]
    exact congrArg some h
  · rw [List.getElem?_take_eq_none (by omega), List.getElem?_take_eq_none (by omega)]

/-! ## The round trip -/

private theorem Token.chars_ne_zero (t : Token) : ∀ c ∈ t.chars, c ≠ 0 := by
  cases t with
  | word w => exact fun c hc ↦ (w.plain c hc).2
  | lt | gt | gtgt | bar | amp | semi | lpar | rpar => decide +kernel

/-- A line of tokens has no zero byte. -/
theorem Spaced.ne_zero {ts : List Token} {text : List UInt8} (h : Spaced ts text) :
    ∀ c ∈ text, c ≠ 0 := by
  have hwhite : ∀ c : UInt8, c ∈ whitespace → c ≠ 0 := by decide +kernel
  induction h with
  | nil hws => exact fun c hc ↦ hwhite c (hws c hc)
  | @cons ws rest t ts hws _ _ ih =>
    intro c hc
    rcases List.mem_append.mp hc with hc | hc
    · exact hwhite c (hws c hc)
    · rcases List.mem_append.mp hc with hc | hc
      · exact t.chars_ne_zero c hc
      · exact ih c hc

private theorem strlen_append_zero {text : List UInt8} (h : ∀ c ∈ text, c ≠ 0) :
    strlen (text ++ [0]) = text.length := by
  have hall : ∀ c ∈ text, (c != 0) = true := fun c hc ↦ bne_iff_ne.mpr (h c hc)
  rw [strlen, List.takeWhile_append_of_pos hall]
  simp

/-- Every command tree with at most nine words a command can be written, and every line that
is written for it, with any white space between the tokens and parentheses wherever they are
wanted, is parsed without an error: the command is the tree, and its strings are the words. -/
theorem parsecmd_rendered (tree : Tree) (hfits : tree.Fits) :
    (∃ ts text, Renders .line tree ts ∧ Spaced ts text) ∧
    ∀ ts text, Renders .line tree ts → Spaced ts text →
      ∃ least c buf, (∀ turns, least ≤ turns → parsecmd turns (text ++ [0]) = .ok (c, buf)) ∧
        c.map (fun p ↦ cstring buf p.1) = tree.cmd := by
  constructor
  · obtain ⟨ts, hr⟩ := exists_renders tree
    obtain ⟨text, hsp, _⟩ := exists_spaced ts
    exact ⟨ts, text, hr.line, hsp⟩
  · intro ts text hr hsp
    have hlex : Lexes text 0 (ts ++ []) := by
      rw [List.append_nil]
      exact ⟨text, At.start text, hsp⟩
    obtain ⟨least, c, s, hrun, hc, hend⟩ := hr.parses hfits hlex nofun
    refine ⟨least, c, nulterminate c (text ++ [0]), fun turns hturns ↦ ?_, ?_⟩
    · have hline : parseline (text ++ [0]) text.length turns 0 = .ok (c, s) := hrun turns hturns
      have hpeek := hend.peek []
      unfold parsecmd
      dsimp only
      rw [strlen_append_zero hsp.ne_zero, hline]
      change (if (peek (text ++ [0]) text.length s []).2 ≠ text.length then _ else _) = _
      rw [hpeek, hend.skipWhite_nil, if_neg (fun h ↦ h rfl)]
    · rw [← hc.eq]
      exact c.map_congr fun p hp ↦ cstring_nulterminate hc.spans hp

/-- The word `a`. -/
def wordA : Word := ⟨[chr 'a'], nofun, by decide +kernel⟩

/-- The tree of `a a > a &`: it is written, and read back. -/
theorem parsecmd_rendered_back : ∃ text c buf turns,
    parsecmd turns (text ++ [0]) = .ok (c, buf) ∧
      c.map (fun p ↦ cstring buf p.1) =
        .backcmd (.redircmd (.execcmd [[chr 'a'], [chr 'a']]) [chr 'a'] 0x601 1) := by
  have h := parsecmd_rendered (.back (.redir (.exec [wordA, wordA]) .write wordA))
    (by exact Nat.le_of_ble_eq_true rfl)
  obtain ⟨ts, text, hr, hsp⟩ := h.1
  obtain ⟨least, c, buf, hrun, hmap⟩ := h.2 ts text hr hsp
  exact ⟨text, c, buf, least, hrun least (Nat.le_refl _), hmap⟩

end Xv6K210.Shell
