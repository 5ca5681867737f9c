import Xv6K210.Printf.Format

/-!
# The user's printf

Source `user/libc/printf.c`. One function formats for a file descriptor, to which it
writes character by character, and for a buffer, where the position goes on counting behind the end.
What `vsnprintf` stores is the text for a descriptor, cut off at the size.
-/

namespace Xv6K210.Printf

open Base

/-! ### The two back ends -/

/-- `BufCtx`. The bytes of `buf` are those that the caller has. -/
structure BufCtx where
  buf : List UInt8
  pos : Int
  size : Int
  deriving DecidableEq, Repr

/-- A store to `buf[i]`. It fails outside of the buffer. -/
def storeAt (buf : List UInt8) (i : Int) (c : UInt8) : Option (List UInt8) :=
  if 0 ≤ i ∧ i < buf.length then some (buf.set i.toNat c) else none

/-- A result of type `int`. -/
def toInt32 (x : Int) : Int := x.bmod (2 ^ 32)

/-- `buf_putc`. -/
def bufPutc (ctx : BufCtx) (c : UInt8) : Option BufCtx :=
  if ctx.pos < ctx.size - 1 then
    (storeAt ctx.buf ctx.pos c).map fun buf ↦ { ctx with buf, pos := toInt32 (ctx.pos + 1) }
  else some { ctx with pos := toInt32 (ctx.pos + 1) }

/-- `OutCtx`: the characters that were written to a descriptor, or a buffer. -/
inductive OutCtx where
  | fd (written : List UInt8)
  | buf (ctx : BufCtx)
  deriving DecidableEq, Repr

/-- `out_putc`. -/
def outPutc : OutCtx → UInt8 → Option OutCtx
  | .fd written, c => some (.fd (written ++ [c]))
  | .buf ctx, c => (bufPutc ctx c).map .buf

/-! ### Conversions -/

/-- `digits`. -/
def digit (d : Nat) : UInt8 := (text "0123456789ABCDEF").getD d 0

/-- `out_printint`. The buffer is put out from its end. -/
def outPrintint (o : OutCtx) (xx : BitVec 32) (base : Nat) (sgn : Bool) : Option OutCtx :=
  (intBuf digit xx base sgn).reverse.foldlM outPutc o

/-- The loop of `out_printptr`. -/
def printptrLoop (o : OutCtx) : Nat → BitVec 64 → Option OutCtx
  | 0, _ => some o
  | n + 1, x => do
    let o ← outPutc o (digit (x >>> 60).toNat)
    printptrLoop o n (x <<< 4)

/-- `out_printptr`. -/
def outPrintptr (o : OutCtx) (x : BitVec 64) : Option OutCtx := do
  let o ← outPutc o '0'.toUInt8
  let o ← outPutc o 'x'.toUInt8
  printptrLoop o 16 x

/-- The loop over the characters of a string. -/
def outStr (o : OutCtx) : List UInt8 → Option OutCtx
  | [] => some o
  | c :: s => if c ≠ 0 then do outStr (← outPutc o c) s else some o

/-- An argument is fetched and put out. -/
def fetch {α : Type} (o : OutCtx) (arg : Option (α × List Arg))
    (put : OutCtx → α → Option OutCtx) : Option (OutCtx × List Arg) := do
  let (v, args) ← arg
  let o ← put o v
  pure (o, args)

/-- The conversion that a character behind `%` selects, with the arguments that are left. -/
def convert (o : OutCtx) (c : UInt8) (args : List Arg) : Option (OutCtx × List Arg) :=
  if c = 'd'.toUInt8 then fetch o (vaInt args) fun o v ↦ outPrintint o v 10 true
  else if c = 'u'.toUInt8 then fetch o (vaInt args) fun o v ↦ outPrintint o v 10 false
  -- the parameter of `out_printint` is an `int`
  else if c = 'l'.toUInt8 then
    fetch o (vaLong args) fun o v ↦ outPrintint o (v.setWidth 32) 10 false
  else if c = 'x'.toUInt8 then fetch o (vaInt args) fun o v ↦ outPrintint o v 16 false
  else if c = 'p'.toUInt8 then fetch o (vaLong args) outPrintptr
  else if c = 's'.toUInt8 then fetch o (vaStr args) fun o s ↦ outStr o (s.getD (text "(null)"))
  else if c = 'c'.toUInt8 then
    fetch o (vaInt args) fun o v ↦ outPutc o (UInt8.ofBitVec (v.setWidth 8))
  else if c = '%'.toUInt8 then do
    let o ← outPutc o c
    pure (o, args)
  else do
    let o ← outPutc o '%'.toUInt8
    let o ← outPutc o c
    pure (o, args)

/-- The loop of `out_vprintf`. The state is `'%'` behind a percent sign. -/
def outVprintf (o : OutCtx) (state : Bool) : List UInt8 → List Arg → Option OutCtx
  | [], _ => some o
  | c :: fmt, args =>
    if c = 0 then some o
    else if state then do
      let (o, args) ← convert o c args
      outVprintf o false fmt args
    else if c = '%'.toUInt8 then outVprintf o true fmt args
    else do
      let o ← outPutc o c
      outVprintf o false fmt args

/-- The characters that `vprintf` writes to a descriptor. No result is a list of arguments that does
not match the format. -/
def vprintf (fmt : List UInt8) (args : List Arg) : Option (List UInt8) :=
  match outVprintf (.fd []) false fmt args with
  | some (.fd written) => some written
  | _ => none

/-- `vsnprintf`, with the buffer behind it. -/
def vsnprintf (buf : List UInt8) (n : Int) (fmt : List UInt8) (args : List Arg) :
    Option (Int × List UInt8) :=
  match outVprintf (.buf ⟨buf, 0, n⟩) false fmt args with
  | some (.buf ctx) =>
    if n > 0 then
      (storeAt ctx.buf (if ctx.pos < n then ctx.pos else n - 1) 0).map (ctx.pos, ·)
    else some (ctx.pos, ctx.buf)
  | _ => none

/-! ### What is put out does not depend on the back end -/

/-- The function puts out the same characters on every back end. -/
def Puts (f : OutCtx → Option OutCtx) (S : List UInt8) : Prop := ∀ o, f o = S.foldlM outPutc o

/-- Nothing is put. -/
theorem Puts.nil : Puts some [] := fun _ ↦ rfl

private theorem Puts.putc (c : UInt8) : Puts (fun o ↦ outPutc o c) [c] := fun o ↦ by
  cases h : outPutc o c with
  | none => simp [h]
  | some o' => simp [h]

/-- One text after another. -/
theorem Puts.bind {f g : OutCtx → Option OutCtx} {S T : List UInt8} (hf : Puts f S)
    (hg : Puts g T) :
    Puts (fun o ↦ (f o).bind g) (S ++ T) := by
  intro o
  change (f o).bind g = _
  rw [hf o, List.foldlM_append]
  exact congrArg _ (funext hg)

/-- The digits of `out_printptr`. -/
def ptrDigits : Nat → BitVec 64 → List UInt8
  | 0, _ => []
  | n + 1, x => digit (x >>> 60).toNat :: ptrDigits n (x <<< 4)

private theorem puts_printptrLoop (n : Nat) (x : BitVec 64) :
    Puts (fun o ↦ printptrLoop o n x) (ptrDigits n x) := by
  induction n generalizing x with
  | zero => exact .nil
  | succ n ih => exact (Puts.putc _).bind (ih (x <<< 4))

/-- `printptr` writes sixteen digits. -/
theorem puts_printptr (x : BitVec 64) :
    Puts (fun o ↦ outPrintptr o x) (text "0x" ++ ptrDigits 16 x) :=
  (Puts.putc _).bind ((Puts.putc _).bind (puts_printptrLoop 16 x))

private theorem puts_str (s : List UInt8) : Puts (fun o ↦ outStr o s) (cstr s) := by
  induction s with
  | nil => exact .nil
  | cons c s ih =>
    intro o
    change outStr o (c :: s) = _
    rw [outStr, cstr, List.takeWhile_cons]
    by_cases hc : c = 0
    · subst hc
      rfl
    · rw [if_pos hc, if_pos (decide_eq_true hc)]
      exact (Puts.putc c).bind ih o

/-- The function puts out the same characters on every back end and leaves the same arguments, or it
misses an argument. -/
def PutsOrFails (f : OutCtx → Option (OutCtx × List Arg)) : Prop :=
  (∃ S : List UInt8, ∃ args, ∀ o, f o = (S.foldlM outPutc o).bind fun o ↦ some (o, args)) ∨
    ∀ o, f o = none

/-- A text that takes no argument. -/
theorem Puts.leaves {f : OutCtx → Option OutCtx} {S : List UInt8} (h : Puts f S) (args : List Arg) :
    PutsOrFails fun o ↦ (f o).bind fun o ↦ some (o, args) :=
  .inl ⟨S, args, fun o ↦ congrArg (fun x : Option OutCtx ↦ x.bind fun o ↦ some (o, args)) (h o)⟩

private theorem puts_fetch {α : Type} (arg : Option (α × List Arg))
    {put : OutCtx → α → Option OutCtx}
    {S : α → List UInt8} (h : ∀ v, Puts (fun o ↦ put o v) (S v)) :
    PutsOrFails fun o ↦ fetch o arg put := by
  cases arg with
  | none => exact .inr fun _ ↦ rfl
  | some p => exact (h p.1).leaves p.2

/-- A conversion puts out some characters, or its argument is missing. -/
theorem puts_convert (c : UInt8) (args : List Arg) : PutsOrFails fun o ↦ convert o c args := by
  unfold convert
  split
  · exact puts_fetch _ fun _ _ ↦ rfl
  split
  · exact puts_fetch _ fun _ _ ↦ rfl
  split
  · exact puts_fetch _ fun _ _ ↦ rfl
  split
  · exact puts_fetch _ fun _ _ ↦ rfl
  split
  · exact puts_fetch _ puts_printptr
  split
  · exact puts_fetch _ fun _ ↦ puts_str _
  split
  · exact puts_fetch _ fun _ ↦ .putc _
  split
  · exact (Puts.putc c).leaves args
  · have hleaves := ((Puts.putc '%'.toUInt8).bind (.putc c)).leaves args
    simp only [Option.bind_assoc] at hleaves
    exact hleaves

/-- A format puts out some characters, or an argument is missing. -/
theorem puts_vprintf (state : Bool) (fmt : List UInt8) (args : List Arg) :
    (∃ S, Puts (fun o ↦ outVprintf o state fmt args) S) ∨
      ∀ o, outVprintf o state fmt args = none := by
  induction fmt generalizing state args with
  | nil => exact .inl ⟨[], .nil⟩
  | cons c fmt ih =>
    unfold outVprintf
    split
    · exact .inl ⟨[], .nil⟩
    split
    · obtain ⟨S, args', hconvert⟩ | hnone := puts_convert c args
      · dsimp only at hconvert
        obtain ⟨T, hrest⟩ | hnone := ih false args'
        · refine .inl ⟨S ++ T, fun o ↦ ?_⟩
          rw [List.foldlM_append]
          change (convert o c args).bind _ = _
          rw [hconvert o]
          cases S.foldlM outPutc o with
          | none => rfl
          | some o => exact hrest o
        · refine .inr fun o ↦ ?_
          change (convert o c args).bind _ = _
          rw [hconvert o]
          cases S.foldlM outPutc o with
          | none => rfl
          | some o => exact hnone o
      · refine .inr fun o ↦ ?_
        change (convert o c args).bind _ = _
        rw [show convert o c args = none from hnone o]
        rfl
    split
    · exact ih true args
    · obtain ⟨T, hrest⟩ | hnone := ih false args
      · exact .inl ⟨[c] ++ T, (Puts.putc c).bind hrest⟩
      · refine .inr fun o ↦ ?_
        change (outPutc o c).bind _ = _
        cases outPutc o c with
        | none => rfl
        | some o => exact hnone o

/-- Bytes written to a descriptor are appended. -/
theorem foldlM_fd (written S : List UInt8) :
    S.foldlM outPutc (.fd written) = some (.fd (written ++ S)) := by
  induction S generalizing written with
  | nil => rw [List.append_nil]; rfl
  | cons c S ih =>
    change S.foldlM outPutc (.fd (written ++ [c])) = _
    rw [ih, List.append_assoc]
    rfl

/-- The text for a descriptor is what any back end gets. -/
theorem puts_of_vprintf {fmt : List UInt8} {args : List Arg} {S : List UInt8}
    (h : vprintf fmt args = some S) : Puts (fun o ↦ outVprintf o false fmt args) S := by
  unfold vprintf at h
  obtain ⟨T, hputs⟩ | hnone := puts_vprintf false fmt args
  · have hfd : outVprintf (.fd []) false fmt args = some (.fd T) :=
      (hputs (.fd [])).trans (foldlM_fd [] T)
    rw [hfd] at h
    cases h
    exact hputs
  · rw [hnone] at h
    cases h

/-! ### The buffer -/

/-- The bytes of a buffer when some characters have been put out. The last byte stays for the
zero. -/
def stored (buf S : List UInt8) : List UInt8 :=
  S.take (buf.length - 1) ++ buf.drop (min S.length (buf.length - 1))

private theorem length_stored (buf S : List UInt8) : (stored buf S).length = buf.length := by
  rw [stored, List.length_append, List.length_take, List.length_drop, Nat.min_comm]
  omega

private theorem stored_full {buf S : List UInt8} (h : buf.length ≤ S.length + 1) (c : UInt8) :
    stored buf (S ++ [c]) = stored buf S := by
  have hle : buf.length - 1 ≤ S.length := by omega
  rw [stored, stored, List.take_append_of_le_length hle, List.length_append,
    Nat.min_eq_right hle, Nat.min_eq_right (by omega)]

/-- A byte of the buffer is replaced behind what was put out. -/
theorem set_stored {buf S : List UInt8} (h : S.length < buf.length) (c : UInt8) :
    (S ++ buf.drop S.length).set S.length c = S ++ c :: buf.drop (S.length + 1) := by
  rw [List.set_append_right _ _ (Nat.le_refl _), Nat.sub_self, List.drop_eq_getElem_cons h,
    List.set_cons_zero]

private theorem stored_room {buf S : List UInt8} (h : S.length + 1 < buf.length) (c : UInt8) :
    (stored buf S).set S.length c = stored buf (S ++ [c]) := by
  have hS : stored buf S = S ++ buf.drop S.length := by
    rw [stored, List.take_of_length_le (by omega), Nat.min_eq_left (by omega)]
  have hlen : (S ++ [c]).length = S.length + 1 := List.length_append
  rw [hS, set_stored (by omega), stored, hlen, List.take_of_length_le (by omega),
    Nat.min_eq_left (by omega), List.append_assoc]
  rfl

private theorem toInt32_natCast {n : Nat} (h : n < 2 ^ 31) : toInt32 n = n := by
  rw [toInt32, Int.bmod_def]
  split
  · omega
  · omega

/-- Each character is stored, or only counted. -/
theorem bufPutc_stored {buf S : List UInt8} {c : UInt8} (hlen : S.length + 1 < 2 ^ 31) :
    bufPutc ⟨stored buf S, S.length, buf.length⟩ c =
      some ⟨stored buf (S ++ [c]), (S ++ [c]).length, buf.length⟩ := by
  have hpos : toInt32 ((S.length : Int) + 1) = ((S ++ [c]).length : Int) := by
    rw [List.length_append]
    exact toInt32_natCast hlen
  unfold bufPutc
  dsimp only
  split
  next hroom =>
    have hindex : (0 : Int) ≤ S.length ∧ (S.length : Int) < (stored buf S).length := by
      rw [length_stored]
      omega
    rw [storeAt, if_pos hindex, Int.toNat_natCast, stored_room (by omega), hpos]
    rfl
  next hroom => rw [stored_full (by omega), hpos]

private theorem foldlM_buf {buf : List UInt8} (S T : List UInt8) (hlen : (S ++ T).length < 2 ^ 31) :
    T.foldlM outPutc (.buf ⟨stored buf S, S.length, buf.length⟩) =
      some (.buf ⟨stored buf (S ++ T), (S ++ T).length, buf.length⟩) := by
  induction T generalizing S with
  | nil =>
    rw [List.append_nil]
    rfl
  | cons c T ih =>
    have hcut : S ++ c :: T = S ++ [c] ++ T := by
      rw [List.append_assoc]
      rfl
    have hc : S.length + 1 < 2 ^ 31 := by
      rw [List.length_append, List.length_cons] at hlen
      omega
    rw [List.foldlM_cons, outPutc, bufPutc_stored hc]
    change T.foldlM outPutc (.buf ⟨stored buf (S ++ [c]), (S ++ [c]).length, buf.length⟩) = _
    rw [hcut]
    exact ih (S ++ [c]) (hcut ▸ hlen)

/-- The zero byte is put behind the characters that are stored. -/
theorem terminate_stored {buf : List UInt8} (S : List UInt8) (hpos : 0 < buf.length) :
    storeAt (stored buf S) (if (S.length : Int) < buf.length then S.length else buf.length - 1) 0 =
      some (S.take (min S.length (buf.length - 1)) ++
        0 :: buf.drop (min S.length (buf.length - 1) + 1)) := by
  have hindex : (if (S.length : Int) < buf.length then (S.length : Int) else buf.length - 1) =
      (min S.length (buf.length - 1) : Nat) := by
    split
    · omega
    · omega
  have hprefix : S.take (buf.length - 1) = S.take (min S.length (buf.length - 1)) := by
    rcases Nat.le_total S.length (buf.length - 1) with hle | hle
    · rw [Nat.min_eq_left hle, List.take_length, List.take_of_length_le hle]
    · rw [Nat.min_eq_right hle]
  have hlen : (S.take (min S.length (buf.length - 1))).length = min S.length (buf.length - 1) :=
    List.length_take_of_le (Nat.min_le_left _ _)
  have hroom : (S.take (min S.length (buf.length - 1))).length < buf.length := by
    rw [hlen]
    omega
  have hset := set_stored hroom 0
  rw [hlen] at hset
  rw [hindex, storeAt, length_stored, if_pos (by omega), Int.toNat_natCast, stored, hprefix, hset]

/-- What `vsnprintf` stores is the text for a descriptor, cut off behind the last byte but one, and
a zero byte. It returns the length of the whole text. Without a buffer it stores nothing. -/
theorem vsnprintf_cuts {fmt : List UInt8} {args : List Arg} {S : List UInt8}
    (hS : vprintf fmt args = some S) (hlen : S.length < 2 ^ 31) (buf : List UInt8) :
    vsnprintf buf buf.length fmt args = some ((S.length : Int),
      if buf.length = 0 then []
      else S.take (min S.length (buf.length - 1)) ++
        0 :: buf.drop (min S.length (buf.length - 1) + 1)) := by
  have hrun : outVprintf (.buf ⟨buf, 0, buf.length⟩) false fmt args =
      some (.buf ⟨stored buf S, S.length, buf.length⟩) := by
    have hstart : stored buf [] = buf := by
      rw [stored, List.take_nil, List.length_nil, Nat.zero_min, List.drop_zero, List.nil_append]
    have hfold : S.foldlM outPutc (.buf ⟨stored buf [], 0, buf.length⟩) =
        some (.buf ⟨stored buf S, S.length, buf.length⟩) := foldlM_buf [] S hlen
    rw [hstart] at hfold
    exact (puts_of_vprintf hS _).trans hfold
  rw [vsnprintf, hrun]
  dsimp only
  by_cases hzero : buf.length = 0
  · have hnil : stored buf S = [] := List.eq_nil_of_length_eq_zero (by rw [length_stored, hzero])
    rw [if_neg (by omega), if_pos hzero, hnil]
  · rw [if_pos (by omega), if_neg hzero, terminate_stored S (Nat.pos_of_ne_zero hzero)]
    rfl

/-- A text of eight characters in a buffer of four bytes. -/
theorem vsnprintf_cuts_four :
    vsnprintf [7, 7, 7, 7] 4 (text "n = %d.") [.int (-12)] = some (8, text "n =" ++ [0]) :=
  vsnprintf_cuts (show vprintf (text "n = %d.") [.int (-12)] = some (text "n = -12.") by decide)
    (by decide) [7, 7, 7, 7]

end Xv6K210.Printf
