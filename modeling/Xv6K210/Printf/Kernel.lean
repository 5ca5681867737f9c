import Xv6K210.Printf.Format

/-!
# The kernel's snprintf

Source `kernel/libc/sprintf.c` and `kernel/lock/spinlock.c:157–204`. The size is
tested before each character of the format, and inside a string; a number, or an unknown sequence,
is put out without a test. Calls are chained with `buf + n` and `sz - n`.
-/

namespace Xv6K210.Printf.Kernel

open Base

/-- `digits`. -/
def digit (d : Nat) : UInt8 := (text "0123456789abcdef").getD d 0

/-- `sputc`, which returns 1. It fails outside of the buffer. -/
def sputc (buf : List UInt8) (i : Nat) (c : UInt8) : Option (List UInt8) :=
  if i < buf.length then some (buf.set i c) else none

/-- Characters that are put out one after the other without a test. -/
def sputs (buf : List UInt8) (i : Nat) : List UInt8 → Option (List UInt8)
  | [] => some buf
  | c :: s => do
    let buf ← sputc buf i c
    sputs buf (i + 1) s

/-- The characters of `sprintint`. -/
def intChars (xx : BitVec 32) (base : Nat) (sign : Bool) : List UInt8 :=
  (intBuf digit xx base sign).reverse

/-- `sprintint`, with the number of characters. -/
def sprintint (buf : List UInt8) (i : Nat) (xx : BitVec 32) (base : Nat) (sign : Bool) :
    Option (Nat × List UInt8) :=
  (sputs buf i (intChars xx base sign)).map ((intChars xx base sign).length, ·)

/-- The loop of `snprintf` over a string, at `base` in the buffer. -/
def strLoop (base : Nat) (sz : Int) : List UInt8 → Nat → List UInt8 → Option (Nat × List UInt8)
  | [], off, buf => some (off, buf)
  | c :: s, off, buf =>
    if c ≠ 0 ∧ (off : Int) < sz then do
      let buf ← sputc buf (base + off) c
      strLoop base sz s (off + 1) buf
    else some (off, buf)

/-- The conversion that a character behind `%` selects. -/
def convert (base : Nat) (sz : Int) (c : UInt8) (args : List Arg) (off : Nat) (buf : List UInt8) :
    Option (Nat × List UInt8 × List Arg) :=
  if c = 'd'.toUInt8 then do
    let (v, args) ← vaInt args
    let (n, buf) ← sprintint buf (base + off) v 10 true
    pure (off + n, buf, args)
  else if c = 'x'.toUInt8 then do
    let (v, args) ← vaInt args
    let (n, buf) ← sprintint buf (base + off) v 16 true
    pure (off + n, buf, args)
  else if c = 's'.toUInt8 then do
    let (s, args) ← vaStr args
    let (off, buf) ← strLoop base sz (s.getD (text "(null)")) off buf
    pure (off, buf, args)
  else if c = '%'.toUInt8 then do
    let buf ← sputc buf (base + off) '%'.toUInt8
    pure (off + 1, buf, args)
  else do
    let buf ← sputc buf (base + off) '%'.toUInt8
    let buf ← sputc buf (base + (off + 1)) c
    pure (off + 1 + 1, buf, args)

/-- The loop of `snprintf`. -/
def snprintfLoop (base : Nat) (sz : Int) :
    List UInt8 → List Arg → Nat → List UInt8 → Option (Nat × List UInt8)
  | [], _, off, buf => some (off, buf)
  | c :: fmt, args, off, buf =>
    if ¬ (off : Int) < sz ∨ c = 0 then some (off, buf)
    else if c ≠ '%'.toUInt8 then do
      let buf ← sputc buf (base + off) c
      snprintfLoop base sz fmt args (off + 1) buf
    else
      match fmt with
      | [] => some (off, buf)
      | c :: fmt =>
        if c = 0 then some (off, buf)
        else do
          let (off, buf, args) ← convert base sz c args off buf
          snprintfLoop base sz fmt args off buf

/-- `snprintf` on the bytes from `base` on. No result is an access outside of the buffer, or an
argument that does not match the format. -/
def snprintf (buf : List UInt8) (base : Nat) (sz : Int) (fmt : List UInt8) (args : List Arg) :
    Option (Nat × List UInt8) :=
  snprintfLoop base sz fmt args 0 buf

/-- The format and the arguments of a call. -/
structure Call where
  fmt : List UInt8
  args : List Arg
  deriving DecidableEq, Repr

/-- Calls that are chained with `buf + n` and `sz - n`, to the sum of their results. -/
def chain (sz : Int) : List Call → Nat → List UInt8 → Option (Nat × List UInt8)
  | [], n, buf => some (n, buf)
  | c :: cs, n, buf => do
    let (r, buf) ← snprintf buf n (sz - n) c.fmt c.args
    chain sz cs (n + r) buf

/-! ### The lock statistics -/

/-- What is printed of a `struct spinlock`. -/
structure LockStat where
  name : List UInt8
  nts : BitVec 32
  n : BitVec 32
  deriving DecidableEq, Repr

/-- The call of `snprint_lock`, for a lock that was acquired. -/
def snprintLock (lk : LockStat) : Option Call :=
  if 0 < lk.n.toInt then
    some ⟨text "lock: %s: #fetch-and-add %d #acquire() %d\n",
      [.str (some lk.name), .int lk.nts, .int lk.n]⟩
  else none

/-- The most contended lock with less contention than `last`. -/
def topLock (first : LockStat) (locks : List LockStat) (last : Int) : LockStat :=
  locks.foldl (fun top lk ↦ if lk.nts.toInt > top.nts.toInt ∧ lk.nts.toInt < last then lk else top)
    first

/-- The loop over the most contended locks. -/
def topLocks (first : LockStat) (locks : List LockStat) : Nat → Int → List LockStat
  | 0, _ => []
  | t + 1, last =>
    let top := topLock first locks last
    top :: topLocks first locks t top.nts.toInt

/-- The calls of `statslock`, with the locks that are registered, of which there is a first one. -/
def statslockCalls (first : LockStat) (rest : List LockStat) : List Call :=
  let locks := first :: rest
  let counted := locks.filter fun lk ↦
    (text "bcache").isPrefixOf (cstr lk.name) || (text "kmem").isPrefixOf (cstr lk.name)
  let tot := counted.foldl (fun tot lk ↦ tot + lk.nts) 0
  [⟨text "--- lock kmem/bcache stats\n", []⟩] ++ counted.filterMap snprintLock ++
    [⟨text "--- top 5 contended locks:\n", []⟩] ++
    (topLocks first locks 5 100000000).filterMap snprintLock ++
    [⟨text "tot= %d\n", [.int tot]⟩]

/-- `statslock`. -/
def statslock (buf : List UInt8) (sz : Int) (first : LockStat) (rest : List LockStat) :
    Option (Nat × List UInt8) :=
  chain sz (statslockCalls first rest) 0 buf

/-! ### What a format puts out -/

/-- What is put out with a test before each character, or without a test in between. -/
inductive Piece where
  | tested (s : List UInt8)
  | block (s : List UInt8)
  deriving DecidableEq, Repr

namespace Piece

def length : Piece → Nat
  | tested s => s.length
  | block s => s.length

/-- The piece does not go across the end: it is tested, or all of it has room. -/
def lands (sz off : Nat) : Piece → Bool
  | tested _ => true
  | block s => off + s.length ≤ sz

end Piece

/-- The piece of a conversion, with the arguments that are left. -/
def pieceOf (c : UInt8) (args : List Arg) : Option (Piece × List Arg) :=
  if c = 'd'.toUInt8 then (vaInt args).map fun a ↦ (.block (intChars a.1 10 true), a.2)
  else if c = 'x'.toUInt8 then (vaInt args).map fun a ↦ (.block (intChars a.1 16 true), a.2)
  else if c = 's'.toUInt8 then
    (vaStr args).map fun a ↦ (.tested (cstr (a.1.getD (text "(null)"))), a.2)
  else if c = '%'.toUInt8 then some (.tested ['%'.toUInt8], args)
  else some (.block ['%'.toUInt8, c], args)

/-- The pieces of a format, if the arguments match it. -/
def pieces : List UInt8 → List Arg → Option (List Piece)
  | [], _ => some []
  | c :: fmt, args =>
    if c = 0 then some []
    else if c ≠ '%'.toUInt8 then (pieces fmt args).map (.tested [c] :: ·)
    else
      match fmt with
      | [] => some []
      | c :: fmt => if c = 0 then some [] else do
        let (p, args) ← pieceOf c args
        (pieces fmt args).map (p :: ·)

/-- The number of characters without a limit. -/
def total : List Piece → Nat
  | [] => 0
  | p :: ps => p.length + total ps

/-- No piece that begins inside the size goes across the end of it. -/
def fits (sz : Nat) : Nat → List Piece → Bool
  | _, [] => true
  | off, p :: ps => sz ≤ off || (p.lands sz off && fits sz (off + p.length) ps)

/-- The same for the calls of a chain. -/
def chainFits (sz : Nat) : Nat → List Call → Bool
  | _, [] => true
  | n, c :: cs => match pieces c.fmt c.args with
    | none => false
    | some ps => fits (sz - n) 0 ps && chainFits sz (min (n + total ps) sz) cs

private theorem fits_end {sz off : Nat} (h : sz ≤ off) (ps : List Piece) :
    fits sz off ps = true := by
  cases ps with
  | nil => rfl
  | cons p ps => rw [fits, decide_eq_true h, Bool.true_or]

private theorem fits_cons {sz off : Nat} (h : off < sz) (p : Piece) (ps : List Piece) :
    fits sz off (p :: ps) = (p.lands sz off && fits sz (off + p.length) ps) := by
  rw [fits, decide_eq_false (Nat.not_le_of_lt h), Bool.false_or]

/-! ### Writes -/

variable {buf : List UInt8} {base sz : Nat}

/-- The function returns with the offset `off` and a buffer of the same length. -/
def Lands (buf : List UInt8) (off : Nat) (r : Option (Nat × List UInt8)) : Prop :=
  ∃ buf', r = some (off, buf') ∧ buf'.length = buf.length

private theorem sputc_inside {i : Nat} (h : i < buf.length) (c : UInt8) :
    ∃ buf', sputc buf i c = some buf' ∧ buf'.length = buf.length :=
  ⟨buf.set i c, if_pos h, List.length_set⟩

private theorem sputs_inside {i : Nat} {s : List UInt8} (h : i + s.length ≤ buf.length) :
    ∃ buf', sputs buf i s = some buf' ∧ buf'.length = buf.length := by
  induction s generalizing i buf with
  | nil => exact ⟨buf, rfl, rfl⟩
  | cons c s ih =>
    rw [List.length_cons] at h
    obtain ⟨buf1, hputc, hlen⟩ := sputc_inside (show i < buf.length by omega) c
    obtain ⟨buf2, hputs, hlen'⟩ := ih (show (i + 1) + s.length ≤ buf1.length by omega)
    refine ⟨buf2, ?_, hlen'.trans hlen⟩
    rw [sputs, hputc]
    exact hputs

private theorem sputs_outside {i : Nat} {s : List UInt8} (hi : i ≤ buf.length)
    (h : buf.length < i + s.length) : sputs buf i s = none := by
  induction s generalizing i buf with
  | nil => exact absurd h (Nat.not_lt_of_le hi)
  | cons c s ih =>
    rw [sputs]
    by_cases hin : i < buf.length
    · obtain ⟨buf1, hputc, hlen⟩ := sputc_inside hin c
      rw [List.length_cons] at h
      rw [hputc]
      exact ih (by omega) (by omega)
    · rw [sputc, if_neg hin]
      rfl

/-- A string is cut off at the end. -/
theorem strLoop_lands (hbuf : base + sz = buf.length) (s : List UInt8) {off : Nat}
    (hoff : off ≤ sz) :
    Lands buf (min (off + (cstr s).length) sz) (strLoop base sz s off buf) := by
  induction s generalizing off buf with
  | nil =>
    refine ⟨buf, ?_, rfl⟩
    change some (off, buf) = some (min (off + 0) sz, buf)
    rw [Nat.add_zero, Nat.min_eq_left hoff]
  | cons c s ih =>
    rw [strLoop]
    by_cases hc : c = 0
    · subst hc
      refine ⟨buf, ?_, rfl⟩
      change some (off, buf) = some (min (off + 0) sz, buf)
      rw [Nat.add_zero, Nat.min_eq_left hoff]
    · have hcstr : (cstr (c :: s)).length = (cstr s).length + 1 := by
        rw [cstr, List.takeWhile_cons, if_pos (decide_eq_true hc)]
        rfl
      by_cases hlt : off < sz
      · obtain ⟨buf1, hputc, hlen⟩ := sputc_inside (show base + off < buf.length by omega) c
        obtain ⟨buf2, hrest, hlen'⟩ :=
          ih (show base + sz = buf1.length by omega) (show off + 1 ≤ sz by omega)
        rw [if_pos ⟨hc, by omega⟩, hcstr, hputc]
        refine ⟨buf2, ?_, hlen'.trans hlen⟩
        rw [Nat.add_right_comm] at hrest
        exact hrest
      · rw [if_neg (by omega)]
        refine ⟨buf, ?_, rfl⟩
        rw [Nat.min_eq_right (by omega), Nat.le_antisymm hoff (Nat.le_of_not_lt hlt)]

/-- A block that has room is put out, and else a write fails. -/
theorem sputs_lands (hbuf : base + sz = buf.length) (s : List UInt8) {off : Nat} (hoff : off < sz) :
    (off + s.length ≤ sz ∧ ∃ buf', sputs buf (base + off) s = some buf' ∧
      buf'.length = buf.length) ∨ (sz < off + s.length ∧ sputs buf (base + off) s = none) := by
  by_cases hroom : off + s.length ≤ sz
  · exact .inl ⟨hroom, sputs_inside (by omega)⟩
  · exact .inr ⟨by omega, sputs_outside (by omega) (by omega)⟩

/-- What a conversion does for its piece: it puts it out if that lands, and else a write fails. -/
def Converts (buf : List UInt8) (sz off : Nat) (p : Piece) (args : List Arg)
    (r : Option (Nat × List UInt8 × List Arg)) : Prop :=
  (p.lands sz off = true ∧ ∃ buf', r = some (min (off + p.length) sz, buf', args) ∧
    buf'.length = buf.length) ∨ (p.lands sz off = false ∧ r = none)

/-- A number is a block. -/
theorem int_converts (hbuf : base + sz = buf.length) (v : BitVec 32) (b : Nat) {off : Nat}
    (hoff : off < sz) (args : List Arg) :
    Converts buf sz off (.block (intChars v b true)) args
      ((sprintint buf (base + off) v b true).bind fun a ↦ some (off + a.1, a.2, args)) := by
  obtain ⟨hroom, buf', hputs, hlen⟩ | ⟨hroom, hputs⟩ := sputs_lands hbuf (intChars v b true) hoff
  · refine .inl ⟨decide_eq_true hroom, buf', ?_, hlen⟩
    rw [sprintint, hputs, Piece.length, Nat.min_eq_left hroom]
    rfl
  · refine .inr ⟨decide_eq_false (Nat.not_le_of_lt hroom), ?_⟩
    rw [sprintint, hputs]
    rfl

private theorem convert_lands (hbuf : base + sz = buf.length) {c : UInt8} {args args' : List Arg}
    {p : Piece}
    {off : Nat} (hoff : off < sz) (hp : pieceOf c args = some (p, args')) :
    Converts buf sz off p args' (convert base sz c args off buf) := by
  unfold pieceOf at hp
  unfold convert
  by_cases hd : c = 'd'.toUInt8
  · rw [if_pos hd] at hp ⊢
    obtain ⟨⟨v, rest⟩, hva, heq⟩ := Option.map_eq_some_iff.mp hp
    cases heq
    rw [hva]
    exact int_converts hbuf v 10 hoff rest
  rw [if_neg hd] at hp ⊢
  by_cases hx : c = 'x'.toUInt8
  · rw [if_pos hx] at hp ⊢
    obtain ⟨⟨v, rest⟩, hva, heq⟩ := Option.map_eq_some_iff.mp hp
    cases heq
    rw [hva]
    exact int_converts hbuf v 16 hoff rest
  rw [if_neg hx] at hp ⊢
  by_cases hs : c = 's'.toUInt8
  · rw [if_pos hs] at hp ⊢
    obtain ⟨⟨s, rest⟩, hva, heq⟩ := Option.map_eq_some_iff.mp hp
    cases heq
    obtain ⟨buf', hloop, hlen⟩ := strLoop_lands hbuf (s.getD (text "(null)")) (Nat.le_of_lt hoff)
    refine .inl ⟨rfl, buf', ?_, hlen⟩
    rw [hva]
    change (strLoop base sz (s.getD (text "(null)")) off buf).bind _ = _
    rw [hloop]
    rfl
  rw [if_neg hs] at hp ⊢
  by_cases hpercent : c = '%'.toUInt8
  · rw [if_pos hpercent] at hp ⊢
    cases hp
    obtain ⟨buf', hputc, hlen⟩ := sputc_inside (show base + off < buf.length by omega) '%'.toUInt8
    refine .inl ⟨rfl, buf', ?_, hlen⟩
    rw [hputc, Piece.length, Nat.min_eq_left (by rw [List.length_singleton]; omega)]
    rfl
  · rw [if_neg hpercent] at hp ⊢
    cases hp
    have hputs := sputs_lands hbuf ['%'.toUInt8, c] hoff
    have heq : (do
        let buf ← sputc buf (base + off) '%'.toUInt8
        let buf ← sputc buf (base + (off + 1)) c
        pure (off + 1 + 1, buf, args)) =
        (sputs buf (base + off) ['%'.toUInt8, c]).bind fun buf ↦ some (off + 2, buf, args) := by
      rw [sputs]
      cases sputc buf (base + off) '%'.toUInt8 with
      | none => rfl
      | some buf1 =>
        change (sputc buf1 (base + (off + 1)) c).bind _ =
          ((sputc buf1 (base + (off + 1)) c).bind _).bind _
        cases sputc buf1 (base + (off + 1)) c with
        | none => rfl
        | some buf2 => rfl
    rw [heq]
    obtain ⟨hroom, buf', hputs, hlen⟩ | ⟨hroom, hputs⟩ := hputs
    · refine .inl ⟨decide_eq_true hroom, buf', ?_, hlen⟩
      rw [hputs, Piece.length, Nat.min_eq_left hroom]
      rfl
    · refine .inr ⟨decide_eq_false (Nat.not_le_of_lt hroom), ?_⟩
      rw [hputs]
      rfl

/-! ### Formats -/

private theorem total_cons (p : Piece) (ps : List Piece) : total (p :: ps) = p.length + total ps :=
    rfl

/-- What a format does for its pieces. -/
def Prints (buf : List UInt8) (sz off : Nat) (ps : List Piece) (r : Option (Nat × List UInt8)) :
    Prop :=
  (fits sz off ps = true ∧ Lands buf (min (off + total ps) sz) r) ∨
    (fits sz off ps = false ∧ r = none)

private theorem prints_nil {off : Nat} (hle : off ≤ sz) :
    Prints buf sz off [] (some (off, buf)) := by
  refine .inl ⟨rfl, buf, ?_, rfl⟩
  change some (off, buf) = some (min (off + 0) sz, buf)
  rw [Nat.add_zero, Nat.min_eq_left hle]

/-- Behind the end of the size nothing more is put out. -/
theorem prints_end (ps : List Piece) : Prints buf sz sz ps (some (sz, buf)) := by
  refine .inl ⟨fits_end (Nat.le_refl sz) ps, buf, ?_, rfl⟩
  rw [Nat.min_eq_right (Nat.le_add_right _ _)]

/-- The rest of a format behind a piece. -/
theorem prints_cons {off : Nat} (hoff : off < sz) {p : Piece} {ps : List Piece} {args : List Arg}
    {r : Option (Nat × List UInt8 × List Arg)} (hp : Converts buf sz off p args r)
    (rest : Nat × List UInt8 × List Arg → Option (Nat × List UInt8))
    (hrest : ∀ buf', buf'.length = buf.length →
      Prints buf' sz (min (off + p.length) sz) ps (rest (min (off + p.length) sz, buf', args))) :
    Prints buf sz off (p :: ps) (r.bind rest) := by
  obtain ⟨hlands, buf', rfl, hlen⟩ | ⟨hlands, rfl⟩ := hp
  · have hfits : fits sz off (p :: ps) = fits sz (min (off + p.length) sz) ps := by
      rw [fits_cons hoff, hlands, Bool.true_and]
      rcases Nat.le_total (off + p.length) sz with hle | hle
      · rw [Nat.min_eq_left hle]
      · rw [Nat.min_eq_right hle, fits_end hle, fits_end (Nat.le_refl sz)]
    have htotal : min (off + total (p :: ps)) sz = min (min (off + p.length) sz + total ps) sz := by
      rw [total_cons]
      omega
    obtain ⟨hps, buf'', hr, hlen'⟩ | ⟨hps, hr⟩ := hrest buf' hlen
    · exact .inl ⟨hfits.trans hps, buf'', htotal ▸ hr, hlen'.trans hlen⟩
    · exact .inr ⟨hfits.trans hps, hr⟩
  · refine .inr ⟨?_, rfl⟩
    rw [fits_cons hoff, hlands, Bool.false_and]

private theorem loop_stop {c : UInt8} {off : Nat} {fmt : List UInt8} {args : List Arg}
    (h : ¬ off < sz ∨ c = 0) : snprintfLoop base sz (c :: fmt) args off buf = some (off, buf) := by
  rw [snprintfLoop.eq_def]
  exact if_pos (h.imp_left fun hlt hlt' ↦ hlt (Int.ofNat_lt.mp hlt'))

private theorem loop_plain {c : UInt8} {off : Nat} {fmt : List UInt8} {args : List Arg}
    (hlt : off < sz)
    (hc : c ≠ 0) (hplain : c ≠ '%'.toUInt8) : snprintfLoop base sz (c :: fmt) args off buf =
      (sputc buf (base + off) c).bind fun buf ↦ snprintfLoop base sz fmt args (off + 1) buf := by
  rw [snprintfLoop.eq_def]
  dsimp only
  have hstop : ¬ (¬ (off : Int) < sz ∨ c = 0) := by
    rintro (h | h)
    · omega
    · exact hc h
  rw [if_neg hstop, if_pos hplain]
  rfl

private theorem loop_percent {c : UInt8} {off : Nat} {fmt : List UInt8} {args : List Arg}
    (hlt : off < sz)
    (hc : c ≠ 0) : snprintfLoop base sz ('%'.toUInt8 :: c :: fmt) args off buf =
      (convert base sz c args off buf).bind fun a ↦ snprintfLoop base sz fmt a.2.2 a.1 a.2.1 := by
  rw [snprintfLoop.eq_def]
  dsimp only
  have hstop : ¬ (¬ (off : Int) < sz ∨ '%'.toUInt8 = 0) := by
    rintro (h | h)
    · omega
    · exact absurd h (by decide)
  rw [if_neg hstop, if_neg (fun h ↦ h rfl), if_neg hc]
  rfl

private theorem loop_end (fmt : List UInt8) (args : List Arg) :
    snprintfLoop base sz fmt args sz buf = some (sz, buf) := by
  cases fmt with
  | nil => rfl
  | cons c fmt => exact loop_stop (.inl (Nat.lt_irrefl _))

/-- A character of the format is put out. -/
theorem plain_converts (hbuf : base + sz = buf.length) {off : Nat} (hoff : off < sz) (c : UInt8)
    (args : List Arg) : Converts buf sz off (.tested [c]) args
      ((sputc buf (base + off) c).bind fun buf ↦ some (off + 1, buf, args)) := by
  obtain ⟨buf', hputc, hlen⟩ := sputc_inside (show base + off < buf.length by omega) c
  refine .inl ⟨rfl, buf', ?_, hlen⟩
  rw [hputc, Piece.length, Nat.min_eq_left (by rw [List.length_singleton]; omega)]
  rfl

/-- The loop puts out the pieces of its format. -/
theorem loop_prints {fmt : List UInt8} {args : List Arg} {ps : List Piece} {off : Nat}
    (hps : pieces fmt args = some ps) (hbuf : base + sz = buf.length) (hoff : off ≤ sz) :
    Prints buf sz off ps (snprintfLoop base sz fmt args off buf) := by
  induction fmt, args using pieces.induct generalizing ps off buf with
  | case1 args =>
    cases hps
    exact prints_nil hoff
  | case2 fmt args =>
    rw [pieces.eq_def] at hps
    cases hps
    rw [loop_stop (.inr rfl)]
    exact prints_nil hoff
  | case3 c fmt args hc hplain ih =>
    rcases Nat.eq_or_lt_of_le hoff with rfl | hlt
    · rw [loop_end]
      exact prints_end ps
    rw [pieces.eq_def] at hps
    dsimp only at hps
    rw [if_neg hc, if_pos hplain] at hps
    obtain ⟨ps', hrest, rfl⟩ := Option.map_eq_some_iff.mp hps
    have hloop : snprintfLoop base sz (c :: fmt) args off buf =
        ((sputc buf (base + off) c).bind fun buf ↦ some (off + 1, buf, args)).bind fun a ↦
          snprintfLoop base sz fmt args a.1 a.2.1 := by
      rw [loop_plain hlt hc hplain, Option.bind_assoc]
      rfl
    rw [hloop]
    exact prints_cons hlt (plain_converts hbuf hlt c args) _ fun buf' hlen ↦
      ih hrest (hbuf.trans hlen.symm) (Nat.min_le_right _ _)
  | case4 c args hc hpercent =>
    rw [pieces.eq_def] at hps
    dsimp only at hps
    rw [if_neg hc, if_neg hpercent] at hps
    cases hps
    rw [snprintfLoop.eq_def]
    dsimp only
    rw [if_neg hpercent, ite_self]
    exact prints_nil hoff
  | case5 c args hc hpercent fmt =>
    rw [pieces.eq_def] at hps
    dsimp only at hps
    rw [if_neg hc, if_neg hpercent, if_pos rfl] at hps
    cases hps
    rw [snprintfLoop.eq_def]
    dsimp only
    rw [if_neg hpercent, if_pos rfl, ite_self]
    exact prints_nil hoff
  | case6 c args hc hpercent d fmt hd ih =>
    rcases Nat.eq_or_lt_of_le hoff with rfl | hlt
    · rw [loop_end]
      exact prints_end ps
    rw [pieces.eq_def] at hps
    dsimp only at hps
    rw [if_neg hc, if_neg hpercent, if_neg hd] at hps
    obtain ⟨⟨p, args'⟩, hpiece, hps⟩ := Option.bind_eq_some_iff.mp hps
    obtain ⟨ps', hrest, rfl⟩ := Option.map_eq_some_iff.mp hps
    obtain rfl : c = '%'.toUInt8 := Decidable.of_not_not hpercent
    rw [loop_percent hlt hd]
    exact prints_cons hlt (convert_lands hbuf hlt hpiece) _ fun buf' hlen ↦
      ih args' hrest (hbuf.trans hlen.symm) (Nat.min_le_right _ _)

/-! ### Calls -/

/-- The function returns at most the size, and has not left the buffer. -/
def Inside (buf : List UInt8) (r : Option (Nat × List UInt8)) : Prop :=
  ∃ n buf', r = some (n, buf') ∧ n ≤ buf.length ∧ buf'.length = buf.length

private theorem Prints.inside_iff {ps : List Piece} {off : Nat} {r : Option (Nat × List UInt8)}
    (h : Prints buf buf.length off ps r) : Inside buf r ↔ fits buf.length off ps = true := by
  obtain ⟨hfits, buf', rfl, hlen⟩ | ⟨hfits, rfl⟩ := h
  · exact ⟨fun _ ↦ hfits, fun _ ↦ ⟨_, buf', rfl, Nat.min_le_right _ _, hlen⟩⟩
  · constructor
    · rintro ⟨n, buf', hr, -⟩
      cases hr
    · intro h
      rw [hfits] at h
      cases h

private theorem chainFits_cons {n : Nat} {c : Call} {ps : List Piece}
    (hps : pieces c.fmt c.args = some ps)
    (cs : List Call) : chainFits sz n (c :: cs) =
      (fits (sz - n) 0 ps && chainFits sz (min (n + total ps) sz) cs) := by
  rw [chainFits, hps]

/-- The calls of a chain stay inside if and only if each of them does. -/
theorem chain_inside {cs : List Call} (hcs : ∀ c ∈ cs, (pieces c.fmt c.args).isSome = true)
    {n : Nat} (hn : n ≤ buf.length) :
    Inside buf (chain buf.length cs n buf) ↔ chainFits buf.length n cs = true := by
  suffices h : ∀ buf' : List UInt8, buf'.length = buf.length →
      (Inside buf (chain buf.length cs n buf') ↔ chainFits buf.length n cs = true) from h buf rfl
  induction cs generalizing n with
  | nil =>
    intro buf' hlen
    exact ⟨fun _ ↦ rfl, fun _ ↦ ⟨n, buf', rfl, hn, hlen⟩⟩
  | cons c cs ih =>
    intro buf' hlen
    obtain ⟨ps, hps⟩ := Option.isSome_iff_exists.mp (hcs c List.mem_cons_self)
    have hsize : (buf.length : Int) - n = (buf.length - n : Nat) := by omega
    have hbuf : n + (buf.length - n) = buf'.length := by omega
    rw [chain, hsize, chainFits_cons hps]
    obtain ⟨hfits, buf'', hcall, hlen'⟩ | ⟨hfits, hcall⟩ := loop_prints hps hbuf (Nat.zero_le _)
    · have hoff : n + min (0 + total ps) (buf.length - n) = min (n + total ps) buf.length := by
        omega
      rw [hfits, Bool.true_and, snprintf, hcall]
      change Inside buf (chain _ _ (n + min (0 + total ps) (buf.length - n)) _) ↔ _
      rw [hoff]
      exact ih (fun c hc ↦ hcs c (List.mem_cons_of_mem _ hc)) (Nat.min_le_right _ _) buf''
        (hlen'.trans hlen)
    · rw [hfits, Bool.false_and, snprintf, hcall]
      constructor
      · rintro ⟨n, buf', hr, -⟩
        cases hr
      · intro h
        cases h

/-- With arguments that match, a call writes only into its buffer and returns at most the size if
and only if no number, and no unknown sequence, that begins in the buffer goes across its end; and
so do the calls of a chain. -/
theorem snprintf_inside {fmt : List UInt8} {args : List Arg} {ps : List Piece}
    (hps : pieces fmt args = some ps) {calls : List Call}
    (hcalls : ∀ c ∈ calls, (pieces c.fmt c.args).isSome = true) (buf : List UInt8) :
    (Inside buf (snprintf buf 0 buf.length fmt args) ↔ fits buf.length 0 ps = true) ∧
      (Inside buf (chain buf.length calls 0 buf) ↔ chainFits buf.length 0 calls = true) :=
  ⟨(loop_prints hps (Nat.zero_add _) (Nat.zero_le _)).inside_iff,
    chain_inside hcalls (Nat.zero_le _)⟩

/-- A call and a chain of calls on three bytes. -/
theorem snprintf_inside_three :
    (Inside [0, 0, 0] (snprintf [0, 0, 0] 0 3 (text "n=%d") [.int 7]) ↔
      fits 3 0 [.tested (text "n"), .tested (text "="), .block (text "7")] = true) ∧
    (Inside [0, 0, 0] (chain 3 [⟨text "a%s", [.str (some (text "bcd"))]⟩, ⟨text "%x", [.int 1]⟩] 0
      [0, 0, 0]) ↔ chainFits 3 0 [⟨text "a%s", [.str (some (text "bcd"))]⟩, ⟨text "%x", [.int 1]⟩] =
        true) :=
  snprintf_inside (by decide) (by decide) [0, 0, 0]

/-- A number of two digits in a buffer of one character. -/
theorem snprintf_overruns :
    ¬ ∀ (buf fmt : List UInt8) (args : List Arg), (pieces fmt args).isSome = true →
      Inside buf (snprintf buf 0 buf.length fmt args) := by
  intro h
  obtain ⟨n, buf', hr, -⟩ := h [0] (text "%d") [.int 10] (by decide)
  have hnone : snprintf [0] 0 1 (text "%d") [.int 10] = none := by decide
  cases hnone.symm.trans hr

/-! ### The lock statistics stay inside -/

private theorem pieces_percent {c : UInt8} {args args' : List Arg} {p : Piece} (hc : c ≠ 0)
    (hp : pieceOf c args = some (p, args')) (fmt : List UInt8) :
    (pieces ('%'.toUInt8 :: c :: fmt) args).isSome = (pieces fmt args').isSome := by
  rw [pieces.eq_def]
  dsimp only
  rw [if_neg (by decide), if_neg (fun h ↦ h rfl), if_neg hc, hp]
  exact Option.isSome_map

/-- No conversion begins in a text, and it does not end the format. -/
def plain (s : List UInt8) : Bool := s.all fun c ↦ c ≠ 0 && c ≠ '%'.toUInt8

private theorem pieces_plain {s : List UInt8} (hs : plain s = true) (fmt : List UInt8)
    (args : List Arg) :
    (pieces (s ++ fmt) args).isSome = (pieces fmt args).isSome := by
  induction s with
  | nil => rfl
  | cons c s ih =>
    rw [plain, List.all_cons, Bool.and_eq_true, Bool.and_eq_true] at hs
    obtain ⟨⟨hc, hpercent⟩, hs⟩ := hs
    rw [List.cons_append, pieces.eq_def]
    dsimp only
    rw [if_neg (of_decide_eq_true hc), if_pos (of_decide_eq_true hpercent), Option.isSome_map]
    exact ih hs

private theorem plain_pieces {s : List UInt8} (hs : plain s = true) (args : List Arg) :
    (pieces s args).isSome = true := by
  have h := pieces_plain hs [] args
  rw [List.append_nil] at h
  exact h

private theorem pieces_number (v : BitVec 32) (fmt : List UInt8) (args : List Arg) :
    (pieces ('%'.toUInt8 :: 'd'.toUInt8 :: fmt) (.int v :: args)).isSome =
      (pieces fmt args).isSome :=
  pieces_percent (p := .block (intChars v 10 true)) (by decide) rfl fmt

private theorem pieces_string (s : Option (List UInt8)) (fmt : List UInt8) (args : List Arg) :
    (pieces ('%'.toUInt8 :: 's'.toUInt8 :: fmt) (.str s :: args)).isSome =
      (pieces fmt args).isSome :=
  pieces_percent (p := .tested (cstr (s.getD (text "(null)")))) (by decide) rfl fmt

private theorem snprintLock_pieces {lk : LockStat} {c : Call} (h : snprintLock lk = some c) :
    (pieces c.fmt c.args).isSome = true := by
  rw [snprintLock] at h
  split at h
  · cases h
    have hfmt : text "lock: %s: #fetch-and-add %d #acquire() %d\n" =
        text "lock: " ++ '%'.toUInt8 :: 's'.toUInt8 :: (text ": #fetch-and-add " ++
          '%'.toUInt8 :: 'd'.toUInt8 :: (text " #acquire() " ++
          '%'.toUInt8 :: 'd'.toUInt8 :: (text "\n" ++ []))) := by decide +kernel
    dsimp only
    rw [hfmt, pieces_plain (by decide), pieces_string, pieces_plain (by decide), pieces_number,
      pieces_plain (by decide), pieces_number, pieces_plain (by decide)]
    rfl
  · cases h

private theorem tot_pieces (v : BitVec 32) :
    (pieces (text "tot= %d\n") [.int v]).isSome = true := by
  have hfmt : text "tot= %d\n" =
      text "tot= " ++ '%'.toUInt8 :: 'd'.toUInt8 :: (text "\n" ++ []) := by decide
  rw [hfmt, pieces_plain (by decide), pieces_number, pieces_plain (by decide)]
  rfl

/-- The lock statistics leave the buffer only with a number that goes across its end. -/
theorem statslock_inside (first : LockStat) (rest : List LockStat) :
    Inside buf (statslock buf buf.length first rest) ↔
      chainFits buf.length 0 (statslockCalls first rest) = true := by
  refine chain_inside (fun c hc ↦ ?_) (Nat.zero_le _)
  simp only [statslockCalls, List.mem_append, List.mem_singleton, List.mem_filterMap] at hc
  rcases hc with (((rfl | ⟨lk, -, hlk⟩) | rfl) | ⟨lk, -, hlk⟩) | rfl
  · exact plain_pieces (by decide) []
  · exact snprintLock_pieces hlk
  · exact plain_pieces (by decide) []
  · exact snprintLock_pieces hlk
  · exact tot_pieces _

end Xv6K210.Printf.Kernel
