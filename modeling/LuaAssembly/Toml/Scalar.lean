import LuaAssembly.Number.Numeral
import LuaAssembly.Toml.Syntax

/-!
# Numbers, dates and times in configuration files

A value that starts with a digit or a sign is an integer, a floating-point number, a date, a time,
or a date and a time.  Only integers are used by the programs that read configurations, so of the
others nothing is kept, but they have to be correct.
-/
namespace LuaAssembly.Toml

open scoped Power

/-! ## Underscores and zeros -/

/-- Every underscore stands after a digit, and the last byte is a digit.  Hexadecimal digits count;
`accept` tells whether one stands in front. -/
def underscoresAllowed (accept : Bool) : Bytes → Bool
  | [] => accept
  | b :: rest => (b ≠ 0x5F || accept) && underscoresAllowed (Bytes.hexValue? b).isSome rest

/-- A decimal number starts with a zero that is not its only digit. -/
def hasLeadingZero : Bytes → Bool
  | 0x30 :: _ :: _ => true
  | 0x2B :: 0x30 :: _ :: _ => true
  | 0x2D :: 0x30 :: _ :: _ => true
  | _ => false

/-- The bytes without underscores. -/
def withoutUnderscores (bs : Bytes) : Bytes :=
  bs.filter (· ≠ 0x5F)

/-! ## Integers -/

/-- An integer of 64 bits. -/
def inRange? (v : Int) : Option Int :=
  if -2 ^ (63 : Nat) ≤ v ∧ v < 2 ^ (63 : Nat) then some v else none

/-- Reads a decimal integer. -/
def decimalInteger? (bs : Bytes) : Option Int :=
  if underscoresAllowed false bs && !hasLeadingZero bs then
    (Numeral.integer? (withoutUnderscores bs)).bind inRange?
  else none

/-- The value of digits in a base. -/
def valueIn (base : Nat) (digits : Bytes) : Nat :=
  digits.foldl (fun n b => base * n + (Bytes.hexValue? b).getD 0) 0

/-- A digit of a base. -/
def isDigitIn (base : Nat) (b : UInt8) : Bool :=
  match Bytes.hexValue? b with
  | some v => v < base
  | none => false

/-- Reads the digits of an integer in base two, eight or sixteen, and gives what follows them. -/
def basedInteger? (base : Nat) (bs : Bytes) : Option (Int × Bytes) :=
  let digits := bs.takeWhile fun b => isDigitIn base b || b = 0x5F
  let rest := bs.drop digits.length
  if underscoresAllowed false digits then
    (inRange? (valueIn base (withoutUnderscores digits))).map (·, rest)
  else none

/-! ## Floating-point numbers -/

/-- The pieces between points and exponent letters; empty pieces are left out. -/
def floatPieces (bs : Bytes) : List Bytes :=
  let marked := bs.map fun b => if b = 0x65 ∨ b = 0x45 then 0x2E else b
  (Bytes.split 0x2E marked).filter (· ≠ [])

/-- A digit follows every point. -/
def pointsAllowed : Bytes → Bool
  | [] => true
  | 0x2E :: rest => (rest.head?.any Bytes.isDigit) && pointsAllowed rest
  | _ :: rest => pointsAllowed rest

/-- A correct floating-point number. -/
def isFloat (bs : Bytes) : Bool :=
  let pieces := floatPieces bs
  pieces.all (underscoresAllowed false) && !(pieces.head?.any hasLeadingZero) &&
    pointsAllowed bs && (Number.ofNumeral? (withoutUnderscores bs)).isSome

/-! ## Dates and times -/

/-- The value of two digits, if it is at most `most`. -/
def twoDigits? (most : Nat) : Bytes → Option (Nat × Bytes)
  | a :: b :: rest =>
    if Bytes.isDigit a && Bytes.isDigit b then
      let v := valueIn 10 [a, b]
      if v ≤ most then some (v, rest) else none
    else none
  | _ => none

/-- Reads a given byte. -/
def byte? (b : UInt8) : Bytes → Option Bytes
  | c :: rest => if c = b then some rest else none
  | [] => none

/-- A year with 366 days. -/
def isLeapYear (year : Nat) : Bool :=
  year % 4 = 0 && (year % 100 ≠ 0 || year % 400 = 0)

/-- The number of days of a month. -/
def daysIn (year month : Nat) : Nat :=
  if month = 2 then if isLeapYear year then 29 else 28
  else if month = 4 ∨ month = 6 ∨ month = 9 ∨ month = 11 then 30
  else 31

/-- Reads a date and gives what follows it. -/
def date? (bs : Bytes) : Option Bytes := do
  let (century, bs) ← twoDigits? 99 bs
  let (year, bs) ← twoDigits? 99 bs
  let bs ← byte? 0x2D bs
  let (month, bs) ← twoDigits? 12 bs
  let bs ← byte? 0x2D bs
  let (day, bs) ← twoDigits? 31 bs
  if 1 ≤ month ∧ 1 ≤ day ∧ day ≤ daysIn (100 * century + year) month then some bs else none

/-- Reads a fraction of a second, if there is one, and gives what follows it. -/
def fraction : Bytes → Bytes
  | 0x2E :: d :: rest =>
    if Bytes.isDigit d then rest.dropWhile Bytes.isDigit else 0x2E :: d :: rest
  | bs => bs

/-- Reads a time of day and gives what follows it.  Seconds may be left out. -/
def time? (bs : Bytes) : Option Bytes := do
  let (_, bs) ← twoDigits? 23 bs
  let bs ← byte? 0x3A bs
  let (_, bs) ← twoDigits? 59 bs
  match byte? 0x3A bs with
  | none => some bs
  | some bs =>
    let (_, bs) ← twoDigits? 59 bs
    some (fraction bs)

/-- A distance from universal time. -/
def isOffset : Bytes → Bool
  | [0x5A] => true
  | sign :: bs =>
    (sign = 0x2B || sign = 0x2D) &&
      match (do
        let (_, bs) ← twoDigits? 24 bs
        let bs ← byte? 0x3A bs
        let (_, bs) ← twoDigits? 60 bs
        some bs : Option Bytes) with
      | some rest => rest = []
      | none => false
  | [] => false

/-- A date, a time, or a date and a time with or without an offset.  A blank or a small letter may
stand for the letter between date and time. -/
def isDatetime (bs : Bytes) : Bool :=
  let bs := bs.map fun b => if b = 0x20 ∨ b = 0x74 then 0x54 else if b = 0x7A then 0x5A else b
  match date? bs with
  | some [] => true
  | some (0x54 :: bs) =>
    match time? bs with
    | some rest => rest = [] || isOffset rest
    | none => false
  | some _ => false
  | none =>
    match time? bs with
    | some rest => rest = []
    | none => false

/-! ## Values that start with a digit or a sign -/

/-- A byte of a floating-point number after its first digits. -/
def isFloatByte (b : UInt8) : Bool :=
  Bytes.isDigit b || b = 0x5F || b = 0x2E || b = 0x2D || b = 0x2B || b = 0x65 || b = 0x45

/-- A byte of a date or a time. -/
def isDatetimeByte (b : UInt8) : Bool :=
  Bytes.isDigit b || b = 0x2D || b = 0x3A || b = 0x54 || b = 0x74 || b = 0x20 || b = 0x2E ||
  b = 0x5A || b = 0x7A || b = 0x2B

/-- The bytes without blanks at the end. -/
def trimEnd (bs : Bytes) : Bytes :=
  (bs.reverse.dropWhile (· = 0x20)).reverse

/-- Reads a decimal number, a date or a time.  `front` is the sign, if any. -/
def decimal? (front bs : Bytes) : Option (Expr × Bytes) :=
  let digits := bs.takeWhile fun b => Bytes.isDigit b || b = 0x5F
  let rest := bs.drop digits.length
  match digits, rest.head? with
  | [], _ => none
  | first :: _, next =>
    if first = 0x5F then none
    else if next = some 0x2E ∨ next = some 0x65 ∨ next = some 0x45 then
      let body := bs.takeWhile isFloatByte
      let number := front ++ digits ++ (body.drop digits.length)
      if isFloat number then some (.float, bs.drop body.length) else none
    else if front = [] ∧ 0x5F ∉ digits ∧ (next = some 0x2D ∨ next = some 0x3A) then
      let body := bs.takeWhile isDatetimeByte
      if isDatetime (trimEnd body) then some (.datetime, bs.drop body.length) else none
    else (decimalInteger? (front ++ digits)).map fun v => (.integer v, rest)

/-- Reads a value that starts with a digit. -/
def numberOrDate? : Bytes → Option (Expr × Bytes)
  | 0x30 :: 0x62 :: rest => (basedInteger? 2 rest).map fun (v, rest) => (.integer v, rest)
  | 0x30 :: 0x6F :: rest => (basedInteger? 8 rest).map fun (v, rest) => (.integer v, rest)
  | 0x30 :: 0x78 :: rest => (basedInteger? 16 rest).map fun (v, rest) => (.integer v, rest)
  | bs => decimal? [] bs

/-- Reads `inf` or `nan`. -/
def notFinite? : Bytes → Option Bytes
  | 0x69 :: 0x6E :: 0x66 :: rest => some rest
  | 0x6E :: 0x61 :: 0x6E :: rest => some rest
  | _ => none

/-- Reads a value after its sign.  Integers in other bases have no sign. -/
def signed? (sign : UInt8) (bs : Bytes) : Option (Expr × Bytes) :=
  match notFinite? bs with
  | some rest => some (.float, rest)
  | none =>
    match bs with
    | 0x30 :: 0x62 :: _ | 0x30 :: 0x6F :: _ | 0x30 :: 0x78 :: _ => none
    | bs => decimal? [sign] bs

end LuaAssembly.Toml
