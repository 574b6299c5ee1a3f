import LuaAssembly.Bytes.Numeral
import LuaAssembly.Number

/-!
# Writing numbers

A number is written with the fewest decimal digits that read back as the same number, and with the
nearest such digits.  The digits are found by exact arithmetic: the reals that round to a number
form an interval, and for one digit, two digits and so on the two neighbours of the number on that
decimal grid are tested for lying in it.
-/
namespace LuaAssembly

open scoped Power

/-- A positive decimal `digits * 10 ^ exponent`. -/
structure Decimal where
  digits : Nat
  /-- The power of ten of the last digit. -/
  exponent : Int
  deriving DecidableEq

namespace Decimal

/-- Drops zeros at the end, at most as many as the first argument says. -/
def trim : Nat → Decimal → Decimal
  | 0, x => x
  | bound + 1, x =>
    if x.digits % 10 = 0 ∧ x.digits ≠ 0 then trim bound ⟨x.digits / 10, x.exponent + 1⟩ else x

end Decimal

/-- The reals that round to a positive number: those between `low` and `high`, in units of
`2 ^ exponent`, with the ends included or not. -/
structure RoundingInterval where
  low : Nat
  value : Nat
  high : Nat
  exponent : Int
  /-- Whether the ends round to the number as well. -/
  closed : Bool

namespace RoundingInterval

/-- The interval of the number with the given magnitude code.  Below a power of two the next
number is only half as far away as above it. -/
def ofCode (code : Nat) : RoundingInterval :=
  let (m, e) := BinaryFormat.double.decompose code
  let nearBelow := m = 2 ^ (52 : Nat) ∧ BinaryFormat.double.minExponent < e
  { low := 4 * m - (if nearBelow then 1 else 2)
    value := 4 * m
    high := 4 * m + 2
    exponent := e - 2
    closed := m % 2 = 0 }

/-- The decimal `c * 10 ^ g` lies in the interval. -/
def contains (I : RoundingInterval) (c : Nat) (g : Int) : Bool :=
  let (lowNum, lowDen) := Ratio.scale2 I.low 1 I.exponent
  let (highNum, highDen) := Ratio.scale2 I.high 1 I.exponent
  let (num, den) := Ratio.scale10 c 1 g
  if I.closed then lowNum * den ≤ num * lowDen && num * highDen ≤ highNum * den
  else lowNum * den < num * lowDen && num * highDen < highNum * den

/-- The decimal on the grid of multiples of `10 ^ g` that is nearest to the number, among those in
the interval; of two that are equally near, the even one. -/
def onGrid? (I : RoundingInterval) (g : Int) : Option Decimal :=
  let (valueNum, valueDen) := Ratio.scale2 I.value 1 I.exponent
  let (num, den) := Ratio.scale10 valueNum valueDen (-g)
  let below := num / den
  let up := Ratio.roundEven num den
  let down := if up = below then below + 1 else below
  if I.contains up g then some ⟨up, g⟩
  else if I.contains down g then some ⟨down, g⟩
  else none

/-- Tries grids from `10 ^ g` downwards; the first argument is the number of grids. -/
def search (I : RoundingInterval) : Nat → Int → Option Decimal
  | 0, _ => none
  | grids + 1, g =>
    match I.onGrid? g with
    | some x => some x
    | none => I.search grids (g - 1)

end RoundingInterval

namespace Number

/-- The fewest digits that read back as a finite number other than zero, sign aside.  Seventeen
digits are always enough. -/
def shortest (v : Number) : Decimal :=
  let I := RoundingInterval.ofCode v.magnitude
  let (num, den) := Ratio.scale2 I.value 1 I.exponent
  match I.search 17 (Ratio.log10 num den) with
  | some x => x.trim 2
  | none => ⟨0, 0⟩

/-- How a number is laid out. -/
structure Layout where
  /-- The smallest power of ten of the leading digit that is written without an exponent. -/
  least : Int
  /-- The first power of ten of the leading digit that is written with an exponent again. -/
  limit : Int

/-- Numbers from `0.0001` to below a million are written without an exponent. -/
def listingLayout : Layout := ⟨-4, 6⟩

/-- Digits with a point after the first one, and a signed exponent of at least two digits. -/
def scientific (digits : Bytes) (exponent : Int) : Bytes :=
  let mantissa :=
    match digits with
    | [] => []
    | [d] => [d]
    | d :: ds => d :: 0x2E :: ds
  let sign : UInt8 := if exponent < 0 then 0x2D else 0x2B
  mantissa ++ [0x65, sign] ++ Numeral.atLeastTwo exponent.natAbs

/-- Digits with the point `places` digits from the front, zeros being filled in as needed. -/
def positional (digits : Bytes) (places : Int) : Bytes :=
  if places ≤ 0 then utf8 "0." ++ List.replicate (-places).toNat 0x30 ++ digits
  else
    let whole := digits.take places.toNat
    let part := digits.drop places.toNat
    let padding := List.replicate (places.toNat - digits.length) 0x30
    whole ++ padding ++ (if part = [] then [] else 0x2E :: part)

/-- The text of a decimal under a layout. -/
def layOut (L : Layout) (x : Decimal) : Bytes :=
  let digits := Numeral.ofNat x.digits
  let leading := x.exponent + digits.length - 1
  if leading < L.least ∨ L.limit ≤ leading then scientific digits leading
  else positional digits (leading + 1)

/-- The text of a number. -/
def text (v : Number) : Bytes :=
  let sign := if v.isNegative then utf8 "-" else []
  if v.isNaN then utf8 "NaN"
  else if v.isInfinite then (if v.isNegative then utf8 "-Inf" else utf8 "+Inf")
  else if v.isZero then sign ++ utf8 "0"
  else sign ++ layOut listingLayout v.shortest

end Number

end LuaAssembly
