import LuaAssembly.Bytes.Numeral
import LuaAssembly.Bytes.Utf8

/-!
# String literals

A string literal is written between double quotes.  `quote` writes one with printable ASCII
characters only, and `unquote` reads any literal of the language.  Inside a literal a byte other
than the quote and the backslash stands for itself; after a backslash come

* one of the letters `a b f n r t v`, a backslash, or a quote of either kind,
* `x` and two hexadecimal digits, or
* one to three decimal digits, as many as there are, with a value of at most 255.
-/
namespace LuaAssembly.Literal

/-- Why a literal cannot be read. -/
inductive Malformed where
  /-- It does not stand between double quotes. -/
  | notQuoted
  | unescapedQuote
  /-- It ends after a backslash. -/
  | unterminatedEscape
  /-- Fewer than two bytes follow `\x`. -/
  | shortHex
  | invalidHex
  | invalidEscape (byte : UInt8)
  /-- These decimal digits are worth more than 255. -/
  | escapeTooLarge (digits : Bytes)
  deriving DecidableEq

/-- The text of the problem with the literal `lit`. -/
def Malformed.message (lit : Bytes) : Malformed → Bytes
  | .notQuoted => utf8 "expected quoted string, got " ++ lit
  | .unescapedQuote => utf8 "unescaped quote in string " ++ lit
  | .unterminatedEscape => utf8 "unterminated escape in string " ++ lit
  | .shortHex => utf8 "short \\x escape in string " ++ lit
  | .invalidHex => utf8 "invalid \\x escape in string " ++ lit
  | .invalidEscape b =>
    utf8 "invalid escape \\" ++ Utf8.encode b.toNat ++ utf8 " in string " ++ lit
  | .escapeTooLarge ds => utf8 "escape \\" ++ ds ++ utf8 " too large in string " ++ lit

/-- How one byte is written inside a literal. -/
def quoteByte (b : UInt8) : Bytes :=
  if b = 0x22 then [0x5C, 0x22]
  else if b = 0x5C then [0x5C, 0x5C]
  else if b = 0x0A then [0x5C, 0x6E]
  else if b = 0x0D then [0x5C, 0x72]
  else if b = 0x09 then [0x5C, 0x74]
  else if 0x20 ≤ b ∧ b < 0x7F then [b]
  else 0x5C :: Numeral.fixed 10 3 b.toNat

/-- The literal of a byte string. -/
def quote (bs : Bytes) : Bytes :=
  0x22 :: (bs.flatMap quoteByte ++ [0x22])

/-- The byte that a backslash and one further byte stand for. -/
def simpleEscape? (e : UInt8) : Option UInt8 :=
  if e = 0x61 then some 0x07
  else if e = 0x62 then some 0x08
  else if e = 0x66 then some 0x0C
  else if e = 0x6E then some 0x0A
  else if e = 0x72 then some 0x0D
  else if e = 0x74 then some 0x09
  else if e = 0x76 then some 0x0B
  else if e = 0x5C ∨ e = 0x22 ∨ e = 0x27 then some e
  else none

/-- The value of the digit character `b`. -/
def digitValue (b : UInt8) : Nat :=
  b.toNat - 0x30

/-- The byte that a run of decimal digits stands for. -/
def decimalEscape (ds : Bytes) : Except Malformed UInt8 :=
  let v := ds.foldl (fun acc b => acc * 10 + digitValue b) 0
  if v ≤ 255 then .ok (UInt8.ofNat v) else .error (.escapeTooLarge ds)

/-- The byte that two hexadecimal digits stand for. -/
def hexEscape (hi lo : UInt8) : Except Malformed UInt8 :=
  match Bytes.hexValue? hi, Bytes.hexValue? lo with
  | some h, some l => .ok (UInt8.ofNat (h * 16 + l))
  | _, _ => .error .invalidHex

/-- Puts a byte, if there is one, in front of the rest, if there is one.  The first problem wins. -/
def consByte (b : Except Malformed UInt8) (rest : Except Malformed Bytes) :
    Except Malformed Bytes :=
  match b with
  | .error e => .error e
  | .ok b =>
    match rest with
    | .error e => .error e
    | .ok bs => .ok (b :: bs)

/-- The bytes that the inside of a literal denotes. -/
def unescape : Bytes → Except Malformed Bytes
  | [] => .ok []
  | c :: rest =>
    if c = 0x22 then .error .unescapedQuote
    else if c ≠ 0x5C then consByte (.ok c) (unescape rest)
    else
      match rest with
      | [] => .error .unterminatedEscape
      | e :: rest₁ =>
        match simpleEscape? e with
        | some b => consByte (.ok b) (unescape rest₁)
        | none =>
          if e = 0x78 then
            match rest₁ with
            | hi :: lo :: rest₂ => consByte (hexEscape hi lo) (unescape rest₂)
            | _ => .error .shortHex
          else if Bytes.isDigit e then
            match rest₁ with
            | d :: rest₂ =>
              if Bytes.isDigit d then
                match rest₂ with
                | d' :: rest₃ =>
                  if Bytes.isDigit d' then consByte (decimalEscape [e, d, d']) (unescape rest₃)
                  else consByte (decimalEscape [e, d]) (unescape (d' :: rest₃))
                | [] => consByte (decimalEscape [e, d]) (.ok [])
              else consByte (decimalEscape [e]) (unescape (d :: rest₂))
            | [] => consByte (decimalEscape [e]) (.ok [])
          else .error (.invalidEscape e)

/-- Takes off the closing quote; nothing when the last byte is not a quote. -/
def body? : Bytes → Option Bytes
  | [] => none
  | [b] => if b = 0x22 then some [] else none
  | b :: bs => (body? bs).map (b :: ·)

/-- The bytes that a literal denotes. -/
def unquote : Bytes → Except Malformed Bytes
  | [] => .error .notQuoted
  | b :: rest =>
    if b = 0x22 then
      match body? rest with
      | some inside => unescape inside
      | none => .error .notQuoted
    else .error .notQuoted

end LuaAssembly.Literal
