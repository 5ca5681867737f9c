import Xv6K210.Base.Numerals

/-!
# Formats and their arguments

Source `user/libc/printf.c` and `kernel/libc/sprintf.c`. Both print an integer with
the same loop. A string ends at its first zero byte, or at the end of the list.
-/

namespace Xv6K210.Printf

open Base

/-- An argument, as `va_arg` fetches it. -/
inductive Arg where
  /-- `int` and `uint` -/
  | int (v : BitVec 32)
  /-- `uint64` -/
  | long (v : BitVec 64)
  /-- `char *`, with the string that it points to -/
  | str (s : Option (List UInt8))
  deriving DecidableEq, Repr

/-- `va_arg(ap, int)` and `va_arg(ap, uint)`. -/
def vaInt : List Arg → Option (BitVec 32 × List Arg)
  | .int v :: args => some (v, args)
  | _ => none

/-- `va_arg(ap, uint64)`. -/
def vaLong : List Arg → Option (BitVec 64 × List Arg)
  | .long v :: args => some (v, args)
  | _ => none

/-- `va_arg(ap, char*)`. -/
def vaStr : List Arg → Option (Option (List UInt8) × List Arg)
  | .str s :: args => some (s, args)
  | _ => none

/-- The bytes of a text. -/
def text (s : String) : List UInt8 := s.toList.map fun c ↦ UInt8.ofNat c.toNat

/-- The characters before the zero byte. -/
def cstr (s : List UInt8) : List UInt8 := s.takeWhile (· ≠ 0)

/-- The buffer of 16 bytes in which an integer is laid down: the digits, and the sign behind
them. -/
def intBuf (digit : Nat → UInt8) (xx : BitVec 32) (base : Nat) (sgn : Bool) : List UInt8 :=
  let neg := sgn && xx.slt 0
  let x := if neg then -xx else xx
  numeral digit base 16 x.toNat ++ if neg then text "-" else []

end Xv6K210.Printf
