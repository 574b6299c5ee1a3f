import LuaAssembly.Bytes.Numeral

/-!
# Positions in source

A position is a byte offset together with the line and the column it falls on.
-/
namespace LuaAssembly

/-- A position in source. -/
structure Position where
  /-- The byte offset, from zero. -/
  offset : Int
  /-- The line, from one. -/
  line : Int
  /-- The column in bytes, from one. -/
  column : Int
  deriving DecidableEq

namespace Position

/-- The position in front of the first byte. -/
def start : Position := ⟨0, 1, 1⟩

/-- No position: what problems carry that are not tied to a place. -/
def none : Position := ⟨0, 0, 0⟩

/-- The position refers to a place in the source. -/
def isValid (p : Position) : Bool :=
  decide (0 < p.line)

/-- The position after one more byte. -/
def advance (p : Position) (b : UInt8) : Position :=
  if b = 0x0A then ⟨p.offset + 1, p.line + 1, 1⟩ else ⟨p.offset + 1, p.line, p.column + 1⟩

/-- The position `n` bytes further on in the same line. -/
def shift (p : Position) (n : Nat) : Position :=
  ⟨p.offset + n, p.line, p.column + n⟩

/-- Line and column. -/
def text (p : Position) : Bytes :=
  Numeral.ofInt p.line ++ utf8 ":" ++ Numeral.ofInt p.column

/-- A message with the position in front, if there is one. -/
def locate (p : Position) (message : Bytes) : Bytes :=
  if p.isValid then p.text ++ utf8 ": " ++ message else message

end Position

end LuaAssembly
