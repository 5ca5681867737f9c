import Xv6K210.Printf.User

/-!
# Printed numbers

Source `user/libc/printf.c:45–125`. The characters of a numeric conversion are read back. All
conversions but `%p` share one loop over the digits of a `uint`, to which a 64-bit argument is cut.
-/

namespace Xv6K210.Printf

open Base

/-! ### Reading -/

/-- The value of a hexadecimal digit. -/
def hexValue (c : UInt8) : Option Nat :=
  if '0'.toUInt8 ≤ c ∧ c ≤ '9'.toUInt8 then some (c.toNat - '0'.toNat)
  else if 'A'.toUInt8 ≤ c ∧ c ≤ 'F'.toUInt8 then some (c.toNat - 'A'.toNat + 10)
  else none

/-- The value of a decimal digit. -/
def decValue (c : UInt8) : Option Nat := (hexValue c).filter (· < 10)

/-- Decimal digits with an optional minus sign. -/
def readSigned (s : List UInt8) : Option Int :=
  if s.head? = some '-'.toUInt8 then (readNumeral decValue 10 s.tail).map fun x : Nat ↦ -(x : Int)
  else (readNumeral decValue 10 s).map Int.ofNat

/-- Hexadecimal digits behind `0x`. -/
def readPtr (s : List UInt8) : Option Int :=
  if s.take 2 = text "0x" then (readNumeral hexValue 16 (s.drop 2)).map Int.ofNat else none

/-- A numeric conversion with its argument. -/
inductive Number where
  | d (v : BitVec 32)
  | u (v : BitVec 32)
  | x (v : BitVec 32)
  | p (v : BitVec 64)
  | l (v : BitVec 64)
  deriving DecidableEq, Repr

namespace Number

/-- The character behind `%`. -/
def letter : Number → UInt8
  | d _ => 'd'.toUInt8
  | u _ => 'u'.toUInt8
  | x _ => 'x'.toUInt8
  | p _ => 'p'.toUInt8
  | l _ => 'l'.toUInt8

def arg : Number → Arg
  | d v => .int v
  | u v => .int v
  | x v => .int v
  | p v => .long v
  | l v => .long v

/-- The value of the argument in its type. -/
def value : Number → Int
  | d v => v.toInt
  | u v => v.toNat
  | x v => v.toNat
  | p v => v.toNat
  | l v => v.toNat

/-- The number that the characters denote. -/
def read (m : Number) (s : List UInt8) : Option Int :=
  match m with
  | d _ => readSigned s
  | u _ => (readNumeral decValue 10 s).map Int.ofNat
  | x _ => (readNumeral hexValue 16 s).map Int.ofNat
  | p _ => readPtr s
  | l _ => (readNumeral decValue 10 s).map Int.ofNat

/-- The characters that are written for the conversion. -/
def printed (m : Number) : Option (List UInt8) := vprintf ['%'.toUInt8, m.letter] [m.arg]

/-- The argument fits into the parameter of the function that prints it. -/
def fits : Number → Bool
  | l v => v.toNat < 2 ^ 32
  | _ => true

end Number

private theorem hexValue_digit : ∀ d, d < 16 → hexValue (digit d) = some d := by decide

private theorem decValue_digit : ∀ d, d < 10 → decValue (digit d) = some d := by decide

/-- What the loop over the digits of a `uint` leaves is read back. -/
theorem read_dec (x : BitVec 32) :
    readNumeral decValue 10 (numeral digit 10 16 x.toNat).reverse = some x.toNat :=
  read_numeral (by decide) decValue_digit (Nat.lt_trans x.isLt (by decide)) (by decide)

private theorem read_hex (x : BitVec 32) :
    readNumeral hexValue 16 (numeral digit 16 16 x.toNat).reverse = some x.toNat :=
  read_numeral (by decide) hexValue_digit (Nat.lt_trans x.isLt (by decide)) (by decide)

/-! ### Printing -/

/-- The first digit of `out_printptr` is the high half-byte, and the others are those of the
rest. -/
theorem toNat_halfByte (x : BitVec 64) :
    x.toNat = (x >>> 60).toNat * 2 ^ 60 + (x <<< 4).toNat / 2 ^ 4 := by
  have := x.isLt
  rw [BitVec.toNat_ushiftRight, BitVec.toNat_shiftLeft, Nat.shiftRight_eq_div_pow, Nat.shiftLeft_eq]
  omega

private theorem readFrom_ptrDigits (n : Nat) (hn : n ≤ 16) (acc : Nat) (x : BitVec 64) :
    readFrom hexValue 16 acc (ptrDigits n x) =
      some (acc * 16 ^ n + x.toNat / 2 ^ (64 - 4 * n)) := by
  induction n generalizing acc x with
  | zero =>
    have hzero : x.toNat / 2 ^ 64 = 0 := Nat.div_eq_of_lt x.isLt
    rw [ptrDigits, readFrom, Nat.pow_zero, Nat.mul_one, Nat.mul_zero, Nat.sub_zero, hzero,
      Nat.add_zero]
  | succ n ih =>
    have hdigit : (x >>> 60).toNat < 16 := by
      have := x.isLt
      rw [BitVec.toNat_ushiftRight, Nat.shiftRight_eq_div_pow]
      omega
    -- both quotients by the weight of the last digit of the rest
    have hweight : 2 ^ 60 = 16 ^ n * 2 ^ (64 - 4 * (n + 1)) := by
      have hpow : 16 ^ n = 2 ^ (4 * n) := by rw [Nat.pow_mul]
      rw [hpow, ← Nat.pow_add]
      congr 1
      omega
    have hrest : (x <<< 4).toNat / 2 ^ (64 - 4 * n) =
        (x <<< 4).toNat / 2 ^ 4 / 2 ^ (64 - 4 * (n + 1)) := by
      have hexp : 64 - 4 * n = 4 + (64 - 4 * (n + 1)) := by omega
      rw [Nat.div_div_eq_div_mul, ← Nat.pow_add, hexp]
    have hdiv : x.toNat / 2 ^ (64 - 4 * (n + 1)) =
        (x >>> 60).toNat * 16 ^ n + (x <<< 4).toNat / 2 ^ (64 - 4 * n) := by
      rw [hrest, toNat_halfByte x, hweight, ← Nat.mul_assoc,
        Nat.mul_comm _ (2 ^ (64 - 4 * (n + 1))),
        Nat.mul_add_div (Nat.two_pow_pos _)]
    rw [ptrDigits, readFrom, hexValue_digit _ hdigit, Option.bind_some, ih (by omega), hdiv,
      Nat.add_mul, Nat.pow_succ, Nat.mul_comm (16 ^ n) 16, ← Nat.mul_assoc, Nat.add_assoc]

/-- Reading back what `out_printptr` prints. -/
theorem readPtr_ptrDigits (x : BitVec 64) :
    readPtr (text "0x" ++ ptrDigits 16 x) = some (x.toNat : Int) := by
  have hread := readFrom_ptrDigits 16 (by decide) 0 x
  rw [Nat.zero_mul, Nat.zero_add, Nat.pow_zero, Nat.div_one] at hread
  change (readFrom hexValue 16 0 (ptrDigits 16 x)).map Int.ofNat = _
  rw [hread]
  rfl

/-- Behind a percent sign the text is that of the conversion. -/
theorem vprintf_percent {c : UInt8} {args args' : List Arg} {S : List UInt8} (hc : c ≠ 0)
    (h : convert (.fd []) c args = some (.fd S, args')) :
      vprintf ['%'.toUInt8, c] args = some S := by
  have hrun : outVprintf (.fd []) false ['%'.toUInt8, c] args = some (.fd S) := by
    change (if c = 0 then _ else (convert (.fd []) c args).bind _) = _
    rw [if_neg hc, h]
    rfl
  rw [vprintf, hrun]

/-- The text of a conversion of one argument. -/
theorem fetch_fd {α : Type} {v : α} {args : List Arg} {put : OutCtx → α → Option OutCtx}
    {S : List UInt8} (h : Puts (fun o ↦ put o v) S) :
    fetch (.fd []) (some (v, args)) put = some (.fd S, args) := by
  have hput : put (.fd []) v = some (.fd S) := (h (.fd [])).trans (foldlM_fd [] S)
  change (put (.fd []) v).bind _ = _
  rw [hput]
  rfl

private theorem letter_ne_zero (m : Number) : m.letter ≠ 0 := by
  cases m with
  | d v => exact show 'd'.toUInt8 ≠ 0 by decide
  | u v => exact show 'u'.toUInt8 ≠ 0 by decide
  | x v => exact show 'x'.toUInt8 ≠ 0 by decide
  | p v => exact show 'p'.toUInt8 ≠ 0 by decide
  | l v => exact show 'l'.toUInt8 ≠ 0 by decide

private theorem printed_eq (m : Number) : m.printed = some (match m with
    | .d v => (intBuf digit v 10 true).reverse
    | .u v => (intBuf digit v 10 false).reverse
    | .x v => (intBuf digit v 16 false).reverse
    | .p v => text "0x" ++ ptrDigits 16 v
    | .l v => (intBuf digit (v.setWidth 32) 10 false).reverse) := by
  cases m with
  | d v | u v | x v | l v => exact vprintf_percent (letter_ne_zero _) (fetch_fd fun _ ↦ rfl)
  | p v => exact vprintf_percent (letter_ne_zero _) (fetch_fd (puts_printptr v))

/-- Without a sign the digits are those of the argument as a `uint`. -/
theorem intBuf_unsigned (xx : BitVec 32) (base : Nat) :
    intBuf digit xx base false = numeral digit base 16 xx.toNat := List.append_nil _

/-- Reading back what `out_printint` prints of an `int`. -/
theorem readSigned_printint (v : BitVec 32) :
    readSigned (intBuf digit v 10 true).reverse = some v.toInt := by
  unfold intBuf
  dsimp only
  rw [Bool.true_and]
  cases hneg : v.slt 0 with
  | true =>
    have hlt : v.toInt < 0 := BitVec.slt_iff_toInt_lt.mp hneg
    have hvalue : -(((-v).toNat : Nat) : Int) = v.toInt := by
      have := v.isLt
      rw [BitVec.toInt_eq_toNat_cond] at hlt ⊢
      rw [BitVec.toNat_neg]
      split at hlt
      · omega
      · rw [if_neg (by assumption), Nat.mod_eq_of_lt (by omega)]
        omega
    have hsign (s : List UInt8) : (text "-").reverse ++ s = '-'.toUInt8 :: s := rfl
    rw [if_pos rfl, if_pos rfl, List.reverse_append, hsign, readSigned, List.head?_cons,
      if_pos rfl, List.tail_cons, read_dec, Option.map_some, hvalue]
  | false =>
    have hle : 0 ≤ v.toInt := by
      have hnot : ¬ v.toInt < 0 := fun h ↦ by
        rw [BitVec.slt_iff_toInt_lt.mpr h] at hneg
        cases hneg
      omega
    have hvalue : ((v.toNat : Nat) : Int) = v.toInt := by
      have := v.isLt
      rw [BitVec.toInt_eq_toNat_cond] at hle ⊢
      split at hle
      · rw [if_pos (by assumption)]
      · omega
    rw [if_neg Bool.false_ne_true, if_neg Bool.false_ne_true, List.append_nil, readSigned]
    split
    next hminus =>
      -- a minus sign is no digit
      have hread := read_dec v
      cases hdigits : (numeral digit 10 16 v.toNat).reverse with
      | nil =>
        rw [hdigits] at hminus
        cases hminus
      | cons c s =>
        rw [hdigits] at hminus hread
        cases hminus
        cases hread
    next => rw [read_dec, Option.map_some, Int.ofNat_eq_natCast, hvalue]

/-- A printed number reads back as its argument, unless it is printed with `%l` and does not fit
into 32 bits: then `out_printint` gets its low 32 bits only. -/
theorem printed_denotes (m : Number) : m.printed.bind m.read = some m.value ↔ m.fits = true := by
  rw [printed_eq]
  cases m with
  | d v => exact iff_of_true (readSigned_printint v) rfl
  | u v =>
    refine iff_of_true ?_ rfl
    change (readNumeral decValue 10 (intBuf digit v 10 false).reverse).map Int.ofNat =
      some (v.toNat : Int)
    rw [intBuf_unsigned, read_dec]
    rfl
  | x v =>
    refine iff_of_true ?_ rfl
    change (readNumeral hexValue 16 (intBuf digit v 16 false).reverse).map Int.ofNat =
      some (v.toNat : Int)
    rw [intBuf_unsigned, read_hex]
    rfl
  | p v => exact iff_of_true (readPtr_ptrDigits v) rfl
  | l v =>
    change (readNumeral decValue 10 (intBuf digit (v.setWidth 32) 10 false).reverse).map Int.ofNat =
      some (v.toNat : Int) ↔ decide (v.toNat < 2 ^ 32) = true
    rw [intBuf_unsigned, read_dec, decide_eq_true_iff, BitVec.toNat_setWidth, Option.map_some,
      Option.some_inj]
    constructor
    · intro h
      have hmod : v.toNat % 2 ^ 32 = v.toNat := Int.ofNat_inj.mp h
      exact hmod ▸ Nat.mod_lt _ (by decide)
    · intro h
      rw [Nat.mod_eq_of_lt h]
      rfl

/-- With `%l`, 2^32 is printed as 0. -/
theorem long_truncated : ¬ (Number.l 0x100000000).printed.bind (Number.l 0x100000000).read =
    some (Number.l 0x100000000).value := by
  decide

end Xv6K210.Printf
