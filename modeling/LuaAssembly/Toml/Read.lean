import LuaAssembly.Toml.Scalar
import LuaAssembly.Toml.Text

/-!
# Reading configuration files

Reading a file gives its lines.  It fails when the file is not correct; since nobody asks where, a
failure has no more to say.
-/
namespace LuaAssembly.Toml

/-! ## Gaps -/

/-- Drops blanks. -/
def skipBlanks (bs : Bytes) : Bytes :=
  bs.dropWhile isBlankByte

/-- Drops blanks, line ends and comments; `comment` tells whether a comment has begun. -/
def skipGap (comment : Bool) : Bytes → Bytes
  | [] => []
  | b :: rest =>
    if comment then skipGap (b ≠ 0x0A) rest
    else if isBlankByte b || isLineEnd b then skipGap false rest
    else if b = 0x23 then skipGap true rest
    else b :: rest

/-- Reads the end of a line: blanks and at most a comment. -/
def lineEnd? (bs : Bytes) : Option Bytes :=
  match skipBlanks bs with
  | [] => some []
  | b :: rest => if b = 0x23 ∨ isLineEnd b then some (skipGap (b = 0x23) rest) else none

/-! ## Keys -/

/-- A byte of a key without quotes. -/
def isKeyByte (b : UInt8) : Bool :=
  (0x41 ≤ b && b ≤ 0x5A) || (0x61 ≤ b && b ≤ 0x7A) || Bytes.isDigit b || b = 0x5F || b = 0x2D

/-- Reads one segment of a key. -/
def segment? : Bytes → Option (Bytes × Bytes)
  | [] => none
  | b :: rest =>
    if b = doubleQuote ∨ b = singleQuote then shortString? b rest
    else
      let name := (b :: rest).takeWhile isKeyByte
      if name = [] then none else some (name, (b :: rest).drop name.length)

/-- Reads a dotted key and the blanks after it. -/
def key? : Nat → Bytes → Option (Key × Bytes)
  | 0, _ => none
  | fuel + 1, bs =>
    match segment? (skipBlanks bs) with
    | none => none
    | some (segment, rest) =>
      match skipBlanks rest with
      | 0x2E :: rest => (key? fuel rest).map fun (key, rest) => (segment :: key, rest)
      | rest => some ([segment], rest)

/-! ## Values -/

/-- Reads a truth value. -/
def boolean? : Bytes → Option (Expr × Bytes)
  | 0x74 :: 0x72 :: 0x75 :: 0x65 :: rest => some (.boolean true, rest)
  | 0x66 :: 0x61 :: 0x6C :: 0x73 :: 0x65 :: rest => some (.boolean false, rest)
  | _ => none

section

variable (value? : Bytes → Option (Expr × Bytes))

/-- Reads the elements of an array up to its end, after those in `done`, the newest first. -/
def items? : Nat → List Expr → Bytes → Option (List Expr × Bytes)
  | 0, _, _ => none
  | fuel + 1, done, bs =>
    match skipGap false bs with
    | 0x5D :: rest => some (done.reverse, rest)
    | bs =>
      match value? bs with
      | none => none
      | some (item, rest) =>
        match skipGap false rest with
        | 0x2C :: rest => items? fuel (item :: done) rest
        | 0x5D :: rest => some ((item :: done).reverse, rest)
        | _ => none

/-- Reads a key, the sign after it, and its value. -/
def assignment? (bs : Bytes) : Option (Entry × Bytes) :=
  match key? (bs.length + 1) bs with
  | some (key, 0x3D :: rest) => (value? (skipBlanks rest)).map fun (v, rest) => (.mk key v, rest)
  | _ => none

/-- Reads the entries of a table in braces up to its end, after those in `done`, the newest
first. -/
def entries? : Nat → List Entry → Bytes → Option (List Entry × Bytes)
  | 0, _, _ => none
  | fuel + 1, done, bs =>
    match skipGap false bs with
    | 0x7D :: rest => some (done.reverse, rest)
    | bs =>
      match assignment? value? bs with
      | none => none
      | some (entry, rest) =>
        match skipGap false rest with
        | 0x2C :: rest => entries? fuel (entry :: done) rest
        | 0x7D :: rest => some ((entry :: done).reverse, rest)
        | _ => none

end

/-- Reads a value that stands at the beginning. -/
def value? : Nat → Bytes → Option (Expr × Bytes)
  | 0, _ => none
  | _ + 1, [] => none
  | fuel + 1, b :: rest =>
    if Bytes.isDigit b then numberOrDate? (b :: rest)
    else if b = 0x5B then
      (items? (value? fuel) (rest.length + 1) [] rest).map fun (items, rest) => (.array items, rest)
    else if b = 0x7B then
      (entries? (value? fuel) (rest.length + 1) [] rest).map fun (entries, rest) =>
        (.table entries, rest)
    else if b = doubleQuote ∨ b = singleQuote then
      (anyString? b rest).map fun (s, rest) => (.string s, rest)
    else if b = 0x2B ∨ b = 0x2D then signed? b rest
    else
      match notFinite? (b :: rest) with
      | some rest => some (.float, rest)
      | none => boolean? (b :: rest)

/-! ## Lines -/

/-- Reads a line after its first bracket. -/
def header? (bs : Bytes) : Option (Line × Bytes) :=
  match bs with
  | 0x5B :: rest =>
    match key? (rest.length + 1) rest with
    | some (key, 0x5D :: 0x5D :: rest) => some (.element key, rest)
    | _ => none
  | bs =>
    match key? (bs.length + 1) bs with
    | some (key, 0x5D :: rest) => some (.table key, rest)
    | _ => none

/-- Reads a line that is not empty. -/
def line? : Bytes → Option (Line × Bytes)
  | [] => none
  | b :: rest =>
    if b = 0x5B then header? rest
    else
      match assignment? (value? (rest.length + 1)) (b :: rest) with
      | some (.mk key v, rest) => some (.assign key v, rest)
      | none => none

/-- Reads all lines. -/
def lines? : Nat → Bytes → Option (List Line)
  | 0, _ => none
  | fuel + 1, bs =>
    match skipGap false bs with
    | [] => some []
    | bs =>
      match line? bs with
      | none => none
      | some (line, rest) =>
        match lineEnd? rest with
        | none => none
        | some rest => (lines? fuel rest).map (line :: ·)

/-! ## Files -/

/-- A file without the mark of its encoding. -/
def withoutMark : Bytes → Bytes
  | 0xFF :: 0xFE :: rest => rest
  | 0xFE :: 0xFF :: rest => rest
  | 0xEF :: 0xBB :: 0xBF :: rest => rest
  | bs => bs

/-- No control bytes but tabs and line ends, and no carriage return without a line feed. -/
def controlsAllowed : Bytes → Bool
  | [] => true
  | 0x0D :: rest => rest.head? = some 0x0A && controlsAllowed rest
  | b :: rest =>
    (b = 0x09 || b = 0x0A || (0x20 ≤ b && b ≠ 0x7F)) && controlsAllowed rest

/-- The lines of a file. -/
def read? (file : Bytes) : Option (List Line) :=
  let bs := withoutMark file
  if controlsAllowed bs && Utf8.isValid bs then lines? (bs.length + 1) bs else none

end LuaAssembly.Toml
