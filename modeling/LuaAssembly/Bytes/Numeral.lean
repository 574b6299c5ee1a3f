import LuaAssembly.Bytes

/-!
# Integers as text

Decimal and hexadecimal writing of integers, and the reading of signed decimal integers that fit
a given number of bits.  Readers accept an optional sign and decimal digits only: no blanks, no
digit separators, no other base.
-/
namespace LuaAssembly.Numeral

open scoped Power

/-- The digit character of a value below sixteen, in lower case. -/
def digit (v : Nat) : UInt8 :=
  if v < 10 then UInt8.ofNat (0x30 + v) else UInt8.ofNat (0x61 + (v - 10))

/-- Writes the digits of `n` in the given base in front of `acc`.  The first argument bounds the
number of digits. -/
def digitsOnto (base : Nat) : Nat → Nat → Bytes → Bytes
  | 0, _, acc => acc
  | bound + 1, n, acc =>
    if n < base then digit n :: acc
    else digitsOnto base bound (n / base) (digit (n % base) :: acc)

/-- A natural number in decimal, without leading zeros. -/
def ofNat (n : Nat) : Bytes :=
  digitsOnto 10 (n + 1) n []

/-- An integer in decimal, with a minus sign when it is negative. -/
def ofInt : Int → Bytes
  | .ofNat n => ofNat n
  | .negSucc n => 0x2D :: ofNat (n + 1)

/-- The last `width` digits of `n` in the given base, with leading zeros. -/
def fixed (base : Nat) : Nat → Nat → Bytes
  | 0, _ => []
  | width + 1, n => fixed base width (n / base) ++ [digit (n % base)]

/-- The last `width` hexadecimal digits of `n`, in lower case. -/
def hex (width n : Nat) : Bytes :=
  fixed 16 width n

/-- The last `width` hexadecimal digits of `n`, in upper case. -/
def hexUpper (width n : Nat) : Bytes :=
  (hex width n).map fun b => if 0x61 ≤ b then b - 0x20 else b

/-- At least two digits of `n` in decimal. -/
def atLeastTwo (n : Nat) : Bytes :=
  if n < 10 then 0x30 :: ofNat n else ofNat n

/-- The value of decimal digits read after `acc`, or nothing when some byte is not a digit. -/
def digitsValue? (acc : Nat) : Bytes → Option Nat
  | [] => some acc
  | b :: bs => if Bytes.isDigit b then digitsValue? (acc * 10 + (b.toNat - 0x30)) bs else none

/-- The value of a non-empty run of decimal digits. -/
def natural? : Bytes → Option Nat
  | [] => none
  | bs => digitsValue? 0 bs

/-- A decimal integer with an optional sign. -/
def integer? : Bytes → Option Int
  | 0x2B :: bs => (natural? bs).map Int.ofNat
  | 0x2D :: bs => (natural? bs).map fun n => -(n : Int)
  | bs => (natural? bs).map Int.ofNat

/-- A decimal integer in the signed range of `bits` bits. -/
def signed? (bits : Nat) (bs : Bytes) : Option Int :=
  match integer? bs with
  | some v => if -(2 ^ (bits - 1) : Int) ≤ v ∧ v < 2 ^ (bits - 1) then some v else none
  | none => none

end LuaAssembly.Numeral
