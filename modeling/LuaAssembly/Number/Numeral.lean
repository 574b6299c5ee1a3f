import LuaAssembly.Bytes.Numeral
import LuaAssembly.Number

/-!
# Reading numbers

A numeral is one of

* `inf` or `infinity` with an optional sign, or `nan` without one, in any case;
* an optional sign, decimal digits with at most one point, and optionally `e` and a signed
  exponent;
* an optional sign, `0x`, hexadecimal digits with at most one point, and `p` with a signed exponent
  in decimal.

An underscore may stand between two digits and between `0x` and a digit.  A numeral denotes the
nearest number, ties to even; one whose value is too large for a finite number denotes nothing.
-/
namespace LuaAssembly.Number

/-- The digits in front of an exponent. -/
structure Mantissa where
  /-- The digits, read as a natural number, point left out. -/
  value : Nat
  /-- How many of the digits stand after the point. -/
  places : Nat
  nonempty : Bool
  pointed : Bool

/-- The value of a digit in base ten or sixteen. -/
def digitIn? (base : Nat) (b : UInt8) : Option Nat :=
  match Bytes.hexValue? b with
  | some v => if v < base then some v else none
  | none => none

/-- Reads digits and at most one point, and gives what follows them. -/
def mantissa (base : Nat) (acc : Mantissa) : Bytes → Mantissa × Bytes
  | [] => (acc, [])
  | b :: rest =>
    match digitIn? base b with
    | some v =>
      mantissa base { acc with
        value := acc.value * base + v
        places := if acc.pointed then acc.places + 1 else acc.places
        nonempty := true } rest
    | none =>
      if b = 0x2E ∧ ¬ acc.pointed then mantissa base { acc with pointed := true } rest
      else (acc, b :: rest)

/-- Reads the digits of an exponent.  Once it has five digits the value no longer matters and the
remaining digits are only checked. -/
def exponentValue? (acc : Nat) : Bytes → Option Nat
  | [] => some acc
  | b :: rest =>
    if Bytes.isDigit b then
      exponentValue? (if acc < 10000 then acc * 10 + (b.toNat - 0x30) else acc) rest
    else none

/-- Reads a signed exponent up to the end. -/
def exponent? : Bytes → Option Int
  | [] => none
  | [0x2B] => none
  | [0x2D] => none
  | 0x2B :: rest => (exponentValue? 0 rest).map Int.ofNat
  | 0x2D :: rest => (exponentValue? 0 rest).map fun n => -(n : Int)
  | rest => (exponentValue? 0 rest).map Int.ofNat

/-- The nearest number to a ratio, unless it is too large. -/
def ofRatio? (negative : Bool) (num den : Nat) : Option Number :=
  let code := Ratio.toBinary .double num den
  if code < BinaryFormat.double.infinity then some (ofCode negative code) else none

/-- The number of `value * 10 ^ e`.  Far outside the range of numbers the power is not computed. -/
def ofDecimal? (negative : Bool) (value : Nat) (e : Int) : Option Number :=
  if value = 0 then some (ofCode negative 0)
  else
    let leading := Ratio.log10 value 1 + e + 1
    if 310 < leading then none
    else if leading < -330 then some (ofCode negative 0)
    else
      let (num, den) := Ratio.scale10 value 1 e
      ofRatio? negative num den

/-- The number of `value * 2 ^ e`.  Far outside the range of numbers the power is not computed. -/
def ofBinary? (negative : Bool) (value : Nat) (e : Int) : Option Number :=
  if value = 0 then some (ofCode negative 0)
  else
    let leading := Ratio.log2 value 1 + e
    if 1100 < leading then none
    else if leading < -1200 then some (ofCode negative 0)
    else
      let (num, den) := Ratio.scale2 value 1 e
      ofRatio? negative num den

/-- Every underscore stands between two digits.  The first argument tells whether a digit stands
in front; digits of the base count wherever they stand. -/
def underscoresSeparate (base : Nat) : Bool → Bytes → Bool
  | _, [] => true
  | digitBefore, b :: rest =>
    if b = 0x5F then
      match rest with
      | [] => false
      | c :: _ => digitBefore && (digitIn? base c).isSome && underscoresSeparate base false rest
    else underscoresSeparate base (digitIn? base b).isSome rest

/-- A mantissa, and what follows the letter of its exponent if there is one.  Underscores are left
out once it is clear that they only separate digits; `digitBefore` tells whether what stands in
front counts as a digit. -/
def parts? (base : Nat) (letter : UInt8) (digitBefore : Bool) (bs : Bytes) :
    Option (Mantissa × Option Bytes) :=
  if underscoresSeparate base digitBefore bs then
    let (m, rest) := mantissa base ⟨0, 0, false, false⟩ (bs.filter (· ≠ 0x5F))
    if m.nonempty then
      match rest with
      | [] => some (m, none)
      | b :: rest => if Bytes.lowerAscii b = letter then some (m, some rest) else none
    else none
  else none

/-- Reads a decimal numeral without its sign. -/
def decimal? (negative : Bool) (bs : Bytes) : Option Number :=
  match parts? 10 0x65 false bs with
  | some (m, none) => ofDecimal? negative m.value (-m.places)
  | some (m, some rest) =>
    match exponent? rest with
    | some e => ofDecimal? negative m.value (e - m.places)
    | none => none
  | none => none

/-- Reads a hexadecimal numeral without its sign and the leading `0x`. -/
def hexadecimal? (negative : Bool) (bs : Bytes) : Option Number :=
  match parts? 16 0x70 true bs with
  | some (m, some rest) =>
    match exponent? rest with
    | some e => ofBinary? negative m.value (e - 4 * m.places)
    | none => none
  | _ => none

/-- Reads a numeral without its sign. -/
def unsigned? (negative : Bool) : Bytes → Option Number
  | 0x30 :: 0x78 :: b :: rest => hexadecimal? negative (b :: rest)
  | 0x30 :: 0x58 :: b :: rest => hexadecimal? negative (b :: rest)
  | bs =>
    let word := bs.map Bytes.lowerAscii
    if word = utf8 "inf" ∨ word = utf8 "infinity" then some (inf negative)
    else decimal? negative bs

/-- The number that a numeral denotes. -/
def ofNumeral? (bs : Bytes) : Option Number :=
  if bs.map Bytes.lowerAscii = utf8 "nan" then some nan
  else
    match bs with
    | 0x2B :: rest => unsigned? false rest
    | 0x2D :: rest => unsigned? true rest
    | _ => unsigned? false bs

end LuaAssembly.Number
