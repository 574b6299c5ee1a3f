import LuaAssembly.Number.Binary

/-!
# Numbers

A number constant is a 64-bit binary floating-point number.  It is kept as its bits, so two
numbers are equal when they are the same bit pattern, and zero and negative zero differ.
Conversions to other widths and to integers are exact computations on the fields.
-/
namespace LuaAssembly

open scoped Power

/-- A 64-bit binary floating-point number. -/
structure Number where
  /-- The sign, exponent and fraction fields, from the top. -/
  bits : BitVec 64
  deriving DecidableEq, Inhabited

namespace Number

/-- The sign bit is set. -/
def isNegative (v : Number) : Bool :=
  v.bits.msb

/-- The exponent and fraction fields as one number. -/
def magnitude (v : Number) : Nat :=
  v.bits.toNat % BinaryFormat.double.signBit

/-- Not a number. -/
def isNaN (v : Number) : Bool :=
  BinaryFormat.double.infinity < v.magnitude

/-- An infinity. -/
def isInfinite (v : Number) : Bool :=
  v.magnitude = BinaryFormat.double.infinity

/-- Zero of either sign. -/
def isZero (v : Number) : Bool :=
  v.magnitude = 0

/-- The number with the given sign and magnitude code. -/
def ofCode (negative : Bool) (code : Nat) : Number :=
  ⟨BitVec.ofNat 64 (if negative then BinaryFormat.double.signBit + code else code)⟩

/-- Zero. -/
def zero : Number := ⟨0⟩

/-- The number that the word `nan` denotes. -/
def nan : Number := ⟨0x7ff8000000000001⟩

/-- An infinity of the given sign. -/
def inf (negative : Bool) : Number :=
  ofCode negative BinaryFormat.double.infinity

/-- The number nearest to an integer. -/
def ofInt (n : Int) : Number :=
  ofCode (n < 0) (Ratio.toBinary .double n.natAbs 1)

/-- The integer part of a finite number: the fraction is dropped. -/
def truncate (v : Number) : Int :=
  let (m, e) := BinaryFormat.double.decompose v.magnitude
  let (n, d) := Ratio.scale2 m 1 e
  if v.isNegative then -((n / d : Nat) : Int) else ((n / d : Nat) : Int)

/-- The code, sign included, of the nearest value in a narrower format.  What is not a number
becomes the quiet one without payload. -/
def narrow (F : BinaryFormat) (v : Number) : Nat :=
  let sign := if v.isNegative then F.signBit else 0
  if v.isNaN then sign + F.infinity + 2 ^ (F.fractionBits - 1)
  else if v.isInfinite then sign + F.infinity
  else
    let (m, e) := BinaryFormat.double.decompose v.magnitude
    let (n, d) := Ratio.scale2 m 1 e
    sign + min F.infinity (Ratio.toBinary F n d)

/-- The number that a code of a narrower format stands for.  What is not a number becomes quiet
and keeps its payload. -/
def widen (F : BinaryFormat) (code : Nat) : Number :=
  let negative := F.signBit ≤ code % (2 * F.signBit)
  let magnitude := code % F.signBit
  if F.infinity < magnitude then
    let payload := magnitude % 2 ^ (F.fractionBits - 1) * 2 ^ (52 - F.fractionBits)
    ofCode negative (BinaryFormat.double.infinity + 2 ^ (51 : Nat) + payload)
  else if magnitude = F.infinity then inf negative
  else
    let (m, e) := F.decompose magnitude
    let (n, d) := Ratio.scale2 m 1 e
    ofCode negative (Ratio.toBinary .double n d)

end Number

end LuaAssembly
