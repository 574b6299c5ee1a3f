import LuaAssembly.Bytes.Utf8

/-!
# Strings in configuration files

Strings stand in double quotes, where a backslash starts an escape, or in single quotes, where
every byte counts.  With three quotes a string may go over several lines.
-/
namespace LuaAssembly.Toml

/-- A blank or a tab. -/
def isBlankByte (b : UInt8) : Bool :=
  b = 0x20 || b = 0x09

/-- A byte that ends a line.  A carriage return counts, because a line feed follows it. -/
def isLineEnd (b : UInt8) : Bool :=
  b = 0x0A || b = 0x0D

/-- The value of hexadecimal digits, if all of them are. -/
def hexNumber? (digits : Bytes) : Option Nat :=
  digits.foldl (fun acc b => acc.bind fun n => (Bytes.hexValue? b).map (16 * n + ·)) (some 0)

/-- The bytes of a character with a given number, if there is one. -/
def scalar? (v : Nat) : Option Bytes :=
  if v < 0xD800 ∨ (0xE000 ≤ v ∧ v ≤ 0x10FFFF) then some (Utf8.encode v) else none

/-- The character that hexadecimal digits name. -/
def hexScalar? (digits : Bytes) : Option Bytes :=
  (hexNumber? digits).bind scalar?

/-- The byte of an escape of one letter. -/
def simpleEscape? (b : UInt8) : Option UInt8 :=
  if b = 0x62 then some 0x08
  else if b = 0x74 then some 0x09
  else if b = 0x6E then some 0x0A
  else if b = 0x66 then some 0x0C
  else if b = 0x72 then some 0x0D
  else if b = 0x65 then some 0x1B
  else if b = 0x22 then some 0x22
  else if b = 0x5C then some 0x5C
  else none

/-- Puts the bytes of an escape in front of the rest of a string. -/
def prepend (front back : Option Bytes) : Option Bytes :=
  front.bind fun xs => back.map (xs ++ ·)

/-- Replaces escapes by what they stand for. -/
def unescape : Bytes → Option Bytes
  | [] => some []
  | 0x5C :: 0x78 :: a :: b :: rest => prepend (hexScalar? [a, b]) (unescape rest)
  | 0x5C :: 0x75 :: a :: b :: c :: d :: rest => prepend (hexScalar? [a, b, c, d]) (unescape rest)
  | 0x5C :: 0x55 :: a :: b :: c :: d :: e :: f :: g :: h :: rest =>
    prepend (hexScalar? [a, b, c, d, e, f, g, h]) (unescape rest)
  | 0x5C :: e :: rest => prepend ((simpleEscape? e).map ([·])) (unescape rest)
  | b :: rest => if b = 0x5C then none else prepend (some [b]) (unescape rest)

/-- Every backslash starts an escape as it is written: a letter, a number with all its digits, or a
blank or a line end.  What a backslash with a blank means is decided when lines are joined. -/
def escapesWellFormed : Bytes → Bool
  | [] => true
  | 0x5C :: 0x78 :: a :: b :: rest => (hexNumber? [a, b]).isSome && escapesWellFormed rest
  | 0x5C :: 0x75 :: a :: b :: c :: d :: rest =>
    (hexNumber? [a, b, c, d]).isSome && escapesWellFormed rest
  | 0x5C :: 0x55 :: a :: b :: c :: d :: e :: f :: g :: h :: rest =>
    (hexNumber? [a, b, c, d, e, f, g, h]).isSome && escapesWellFormed rest
  | 0x5C :: e :: rest =>
    ((simpleEscape? e).isSome || isBlankByte e || isLineEnd e) && escapesWellFormed rest
  | b :: rest => b ≠ 0x5C && escapesWellFormed rest

/-- A string over several lines does not start with the line end after its quotes. -/
def withoutFirstLineEnd : Bytes → Bytes
  | 0x0A :: rest => rest
  | 0x0D :: 0x0A :: rest => rest
  | bs => bs

/-- Blanks with a line end among them. -/
def startsLine (bs : Bytes) : Bool :=
  (bs.takeWhile fun b => isBlankByte b || isLineEnd b).contains 0x0A

/-- Leaves out every backslash that stands at the end of a line, with all blanks and line ends after
it; `skipping` tells whether such a backslash stands in front. -/
def joinLines (skipping : Bool) : Bytes → Bytes
  | [] => []
  | 0x5C :: c :: rest =>
    if startsLine (c :: rest) then joinLines true (c :: rest)
    else 0x5C :: c :: joinLines false rest
  | b :: rest =>
    if skipping ∧ (isBlankByte b ∨ isLineEnd b) then joinLines true rest
    else b :: joinLines false rest

/-- What stands in front of the closing quote, and what follows it.  With `escapes` a backslash
takes away the meaning of the byte after it.  `before` holds the bytes read so far, last first. -/
def untilQuote (quote : UInt8) (escapes : Bool) (before : Bytes) : Bytes → Option (Bytes × Bytes)
  | [] => none
  | b :: rest =>
    if b = quote then some (before.reverse, rest)
    else if isLineEnd b then none
    else if escapes ∧ b = 0x5C then
      match rest with
      | [] => none
      | c :: rest =>
        if isLineEnd c then none else untilQuote quote escapes (c :: b :: before) rest
    else untilQuote quote escapes (b :: before) rest

/-- Five quotes have been read, so that a sixth is one too many.  Quotes after a backslash do not
count. -/
def isFull (quote : UInt8) (escapes : Bool) (before : Bytes) : Bool :=
  match before with
  | a :: b :: rest => a = quote && b = quote && !(escapes && rest.head? = some 0x5C)
  | _ => false

/-- What stands in front of three closing quotes, and what follows them.  The last of several
possible places counts, so a string may end in one or two quotes. -/
def untilTriple (quote : UInt8) (escapes : Bool) (before : Bytes) : Bytes → Option (Bytes × Bytes)
  | [] => none
  | b :: rest =>
    if b = quote then
      match rest with
      | c :: d :: more =>
        if c = quote ∧ d = quote then
          if more.head? = some quote then
            if isFull quote escapes before then none
            else untilTriple quote escapes (b :: before) (c :: d :: more)
          else some (before.reverse, more)
        else untilTriple quote escapes (b :: before) (c :: d :: more)
      | rest => untilTriple quote escapes (b :: before) rest
    else if escapes ∧ b = 0x5C then
      match rest with
      | [] => none
      | c :: rest => untilTriple quote escapes (c :: b :: before) rest
    else untilTriple quote escapes (b :: before) rest

/-- The double quote. -/
def doubleQuote : UInt8 := 0x22

/-- The single quote. -/
def singleQuote : UInt8 := 0x27

/-- Reads the rest of a string on one line, after its opening quote. -/
def shortString? (quote : UInt8) (bs : Bytes) : Option (Bytes × Bytes) :=
  match untilQuote quote (quote = doubleQuote) [] bs with
  | none => none
  | some (body, rest) =>
    if quote = doubleQuote then (unescape body).map (·, rest) else some (body, rest)

/-- Reads the rest of a string over several lines, after its opening quotes.  An escape does not go
on behind the end of a line. -/
def longString? (quote : UInt8) (bs : Bytes) : Option (Bytes × Bytes) :=
  match untilTriple quote (quote = doubleQuote) [] bs with
  | none => none
  | some (body, rest) =>
    let text := withoutFirstLineEnd body
    if quote ≠ doubleQuote then some (text, rest)
    else if escapesWellFormed body then (unescape (joinLines false text)).map (·, rest)
    else none

/-- Reads a string after its first quote. -/
def anyString? (quote : UInt8) : Bytes → Option (Bytes × Bytes)
  | a :: b :: rest =>
    if a = quote ∧ b = quote then longString? quote rest else shortString? quote (a :: b :: rest)
  | bs => shortString? quote bs

end LuaAssembly.Toml
