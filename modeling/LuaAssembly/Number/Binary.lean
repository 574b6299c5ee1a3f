import LuaAssembly.Bytes

/-!
# Binary number formats

The IEEE 754 binary formats, by the widths of their fields, and correct rounding of an exact
ratio into one of them.  A magnitude is coded as the exponent field and the fraction field read as
one natural number, so codes are in the order of the values they stand for, the code after the
largest finite one is infinity, and the codes above it are not numbers.
-/
namespace LuaAssembly

open scoped Power

/-- A binary interchange format. -/
structure BinaryFormat where
  fractionBits : Nat
  exponentBits : Nat

namespace BinaryFormat

/-- The 64-bit format. -/
def double : BinaryFormat := ⟨52, 11⟩

/-- The 32-bit format. -/
def single : BinaryFormat := ⟨23, 8⟩

/-- The 16-bit format. -/
def half : BinaryFormat := ⟨10, 5⟩

variable (F : BinaryFormat)

/-- The exponent of the smallest positive value. -/
def minExponent : Int :=
  2 - 2 ^ (F.exponentBits - 1) - F.fractionBits

/-- The code of infinity. -/
def infinity : Nat :=
  (2 ^ F.exponentBits - 1) * 2 ^ F.fractionBits

/-- Where the sign bit stands. -/
def signBit : Nat :=
  2 ^ (F.exponentBits + F.fractionBits)

/-- A finite code as `(m, e)`, standing for `m * 2 ^ e`. -/
def decompose (code : Nat) : Nat × Int :=
  let exponent := code / 2 ^ F.fractionBits
  let fraction := code % 2 ^ F.fractionBits
  if exponent = 0 then (fraction, F.minExponent)
  else (2 ^ F.fractionBits + fraction, F.minExponent + exponent - 1)

end BinaryFormat

namespace Ratio

/-- The quotient rounded to the nearest integer, a half to the even neighbour. -/
def roundEven (num den : Nat) : Nat :=
  let q := num / den
  let r := num % den
  if 2 * r < den then q
  else if den < 2 * r then q + 1
  else q + q % 2

/-- `num * 2 ^ e` as a ratio over `den`. -/
def scale2 (num den : Nat) (e : Int) : Nat × Nat :=
  if 0 ≤ e then (num * 2 ^ e.toNat, den) else (num, den * 2 ^ (-e).toNat)

/-- `num * 10 ^ e` as a ratio over `den`. -/
def scale10 (num den : Nat) (e : Int) : Nat × Nat :=
  if 0 ≤ e then (num * 10 ^ e.toNat, den) else (num, den * 10 ^ (-e).toNat)

/-- The exponent of the largest power of two that a positive ratio reaches. -/
def log2 (num den : Nat) : Int :=
  let guess : Int := (Nat.log2 num : Int) - Nat.log2 den
  let (n, d) := scale2 num den (-guess)
  if d ≤ n then guess else guess - 1

/-- The exponent of the largest power of ten that a positive ratio reaches. -/
def log10 (num den : Nat) : Int :=
  let guess := log2 num den * 30103 / 100000
  let (n, d) := scale10 num den (-guess)
  if n < d then guess - 1 else if 10 * d ≤ n then guess + 1 else guess

/-- The code of the nearest value of the format to a ratio, a tie going to the even code.  Codes
from infinity on mean that the ratio is too large. -/
def toBinary (F : BinaryFormat) (num den : Nat) : Nat :=
  if num = 0 then 0
  else
    let e := max F.minExponent (log2 num den - F.fractionBits)
    let (n, d) := scale2 num den (-e)
    (e - F.minExponent).toNat * 2 ^ F.fractionBits + roundEven n d

end Ratio

end LuaAssembly
