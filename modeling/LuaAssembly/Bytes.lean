/-!
# Byte strings

Source text, names, string constants, messages and files are all sequences of bytes, and nothing
requires them to be valid UTF-8.  This file fixes the type and the few operations on it that the
rest of the library shares: cutting at a separator, joining, padding, and the letters that stand
for a byte of the same value.

It also fixes what a power is.  The widths and bounds of the formats are powers of two, ten and two
hundred and fifty-six.  An algebraic library brings powers of its own, equal to those of the core
library but built in another way.  The instances of `Power` are preferred where they are opened, so
that the definitions there mean the same whatever else is imported.
-/
namespace LuaAssembly

/-! ## Powers -/

namespace Power

/-- The powers of a natural number. -/
scoped instance (priority := 2000) natural : Pow Nat Nat := instPowNat

/-- The powers of an integer. -/
scoped instance (priority := 2000) integer : Pow Int Nat := instPowNat

end Power

/-! ## Byte strings -/

/-- A byte string. -/
abbrev Bytes := List UInt8

/-- The bytes of a piece of text, in UTF-8. -/
def utf8 (s : String) : Bytes :=
  s.toList.flatMap String.utf8EncodeChar

namespace Bytes

/-- The pieces between the occurrences of `sep`.  There is always one piece more than there are
separators, so the empty string has one empty piece. -/
def split (sep : UInt8) : Bytes → List Bytes
  | [] => [[]]
  | b :: bs =>
    if b = sep then [] :: split sep bs
    else
      match split sep bs with
      | [] => [[b]]
      | piece :: pieces => (b :: piece) :: pieces

/-- The pieces one after the other, with `sep` between neighbours. -/
def join (sep : Bytes) : List Bytes → Bytes
  | [] => []
  | [piece] => piece
  | piece :: pieces => piece ++ sep ++ join sep pieces

/-- The part after the last occurrence of `sep`, or everything when there is none. -/
def afterLast (sep : UInt8) (bs : Bytes) : Bytes :=
  (bs.reverse.takeWhile (· ≠ sep)).reverse

/-- The first `n` bytes and what follows them, if there are as many. -/
def splitAt? : Nat → Bytes → Option (Bytes × Bytes)
  | 0, bs => some ([], bs)
  | _ + 1, [] => none
  | n + 1, b :: bs =>
    match splitAt? n bs with
    | some (front, back) => some (b :: front, back)
    | none => none

/-- Pads with blanks on the right up to `width` bytes; longer strings stay as they are. -/
def padRight (width : Nat) (bs : Bytes) : Bytes :=
  bs ++ List.replicate (width - bs.length) 0x20

/-- Lower case of an ASCII letter; every other byte is left alone. -/
def lowerAscii (b : UInt8) : UInt8 :=
  if 0x41 ≤ b ∧ b ≤ 0x5A then b + 0x20 else b

/-- A decimal digit. -/
def isDigit (b : UInt8) : Bool :=
  0x30 ≤ b && b ≤ 0x39

/-- The value of a hexadecimal digit of either case. -/
def hexValue? (b : UInt8) : Option Nat :=
  if 0x30 ≤ b ∧ b ≤ 0x39 then some (b.toNat - 0x30)
  else if 0x61 ≤ b ∧ b ≤ 0x66 then some (b.toNat - 0x61 + 10)
  else if 0x41 ≤ b ∧ b ≤ 0x46 then some (b.toNat - 0x41 + 10)
  else none

/-- Byte strings are ordered byte by byte, a proper beginning before its extensions. -/
def le : Bytes → Bytes → Bool
  | [], _ => true
  | _ :: _, [] => false
  | a :: as, b :: bs => if a = b then le as bs else decide (a < b)

theorem split_ne_nil (sep : UInt8) (bs : Bytes) : split sep bs ≠ [] := by
  cases bs with
  | nil => simp [split]
  | cons b bs =>
    rw [split]
    split
    · simp
    · split <;> simp

end Bytes

end LuaAssembly
