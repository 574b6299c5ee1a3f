import LuaAssembly.Source.Token

/-!
# Places in a text

An editor asks about a place in a text: a line and a number of bytes into it, both counted from
zero.  The word there is the longest run of word bytes of that line that touches the place.  A byte
is classified as the Latin-1 character of the same number.  A range is the part of a text from one
place up to another.
-/
namespace LuaAssembly.Editor

/-- A place in a text. -/
structure Place where
  line : Nat
  /-- The number of bytes in front of the place on its line. -/
  column : Nat
  deriving DecidableEq

/-- A letter, a digit, an underscore or a point. -/
def isWordByte (b : UInt8) : Bool :=
  (0x41 ≤ b && b ≤ 0x5A) || (0x61 ≤ b && b ≤ 0x7A) || Bytes.isDigit b || b = 0x5F || b = 0x2E ||
  b = 0xAA || b = 0xB5 || b = 0xBA || (0xC0 ≤ b && b ≤ 0xD6) || (0xD8 ≤ b && b ≤ 0xF6) || 0xF8 ≤ b

/-- The lines of a text. -/
def lines (text : Bytes) : List Bytes :=
  text.split 0x0A

/-- The line of a place, which is empty when the text has fewer lines. -/
def lineAt (text : Bytes) (place : Place) : Bytes :=
  ((lines text)[place.line]?).getD []

/-- The word bytes directly in front of a place. -/
def wordBefore (text : Bytes) (place : Place) : Bytes :=
  (((lineAt text place).take place.column).reverse.takeWhile isWordByte).reverse

/-- The word bytes directly after a place. -/
def wordAfter (text : Bytes) (place : Place) : Bytes :=
  ((lineAt text place).drop place.column).takeWhile isWordByte

/-- The word at a place. -/
def wordAt (text : Bytes) (place : Place) : Bytes :=
  wordBefore text place ++ wordAfter text place

/-! ## Ranges -/

/-- The part of a text from `first` up to `last`. -/
structure Range where
  first : Place
  last : Place
  deriving DecidableEq

/-- The place of a source position. -/
def Place.ofPosition (p : Position) : Place :=
  ⟨(p.line - 1).toNat, (p.column - 1).toNat⟩

namespace Range

/-- The empty range at the start of a text. -/
def zero : Range :=
  ⟨⟨0, 0⟩, ⟨0, 0⟩⟩

/-- The range between two positions. -/
def between (first last : Position) : Range :=
  ⟨.ofPosition first, .ofPosition last⟩

/-- The range of a token. -/
def ofToken (t : Token) : Range :=
  between t.pos t.stop

end Range

end LuaAssembly.Editor
