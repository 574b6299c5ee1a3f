import LuaAssembly.Bytes

/-!
# Reading UTF-8

Byte strings are cut into Unicode scalar values and stray bytes.  A byte that does not begin a
well-formed sequence (too short, overlong, a surrogate, or above U+10FFFF) stands alone, and
reading goes on at the next byte.
-/
namespace LuaAssembly.Utf8

/-- One piece of a byte string. -/
inductive Piece where
  /-- A well-formed sequence, with the scalar value it encodes. -/
  | scalar (value : Nat)
  /-- A byte that belongs to no well-formed sequence. -/
  | stray (byte : UInt8)
  deriving DecidableEq

/-- A continuation byte. -/
def isTail (b : UInt8) : Bool :=
  0x80 ≤ b && b ≤ 0xBF

/-- The six payload bits of a continuation byte. -/
def tailBits (b : UInt8) : Nat :=
  b.toNat % 64

/-- The length of the sequence that a lead byte opens and the range its second byte must lie in.
Bytes that open no longer sequence have no entry. -/
def lead? (b : UInt8) : Option (Nat × UInt8 × UInt8) :=
  if 0xC2 ≤ b ∧ b ≤ 0xDF then some (2, 0x80, 0xBF)
  else if b = 0xE0 then some (3, 0xA0, 0xBF)
  else if b = 0xED then some (3, 0x80, 0x9F)
  else if 0xE1 ≤ b ∧ b ≤ 0xEF then some (3, 0x80, 0xBF)
  else if b = 0xF0 then some (4, 0x90, 0xBF)
  else if 0xF1 ≤ b ∧ b ≤ 0xF3 then some (4, 0x80, 0xBF)
  else if b = 0xF4 then some (4, 0x80, 0x8F)
  else none

/-- The scalar value at the front of a byte string, with the number of bytes it takes. -/
def first? : Bytes → Option (Nat × Nat)
  | [] => none
  | a :: rest =>
    if a < 0x80 then some (a.toNat, 1)
    else
      match lead? a, rest with
      | some (2, lo, hi), b :: _ =>
        if lo ≤ b ∧ b ≤ hi then some ((a.toNat % 32) * 64 + tailBits b, 2) else none
      | some (3, lo, hi), b :: c :: _ =>
        if lo ≤ b ∧ b ≤ hi ∧ isTail c then
          some (((a.toNat % 16) * 64 + tailBits b) * 64 + tailBits c, 3)
        else none
      | some (4, lo, hi), b :: c :: d :: _ =>
        if lo ≤ b ∧ b ≤ hi ∧ isTail c ∧ isTail d then
          some ((((a.toNat % 8) * 64 + tailBits b) * 64 + tailBits c) * 64 + tailBits d, 4)
        else none
      | _, _ => none

/-- Cuts a byte string into pieces.  `skip` bytes at the front belong to the piece before. -/
def piecesFrom : Nat → Bytes → List Piece
  | _, [] => []
  | skip + 1, _ :: rest => piecesFrom skip rest
  | 0, b :: rest =>
    match first? (b :: rest) with
    | some (value, width) => .scalar value :: piecesFrom (width - 1) rest
    | none => .stray b :: piecesFrom 0 rest

/-- The pieces of a byte string, in order. -/
def pieces (bs : Bytes) : List Piece :=
  piecesFrom 0 bs

/-- A piece that is a scalar value. -/
def Piece.isScalar : Piece → Bool
  | .scalar _ => true
  | .stray _ => false

/-- A byte string is valid when it has no stray byte. -/
def isValid (bs : Bytes) : Bool :=
  (pieces bs).all Piece.isScalar

/-- The UTF-8 sequence of a scalar value. -/
def encode (v : Nat) : Bytes :=
  if v < 0x80 then [UInt8.ofNat v]
  else if v < 0x800 then [UInt8.ofNat (0xC0 + v / 64), UInt8.ofNat (0x80 + v % 64)]
  else if v < 0x10000 then
    [UInt8.ofNat (0xE0 + v / 4096), UInt8.ofNat (0x80 + v / 64 % 64), UInt8.ofNat (0x80 + v % 64)]
  else
    [UInt8.ofNat (0xF0 + v / 262144), UInt8.ofNat (0x80 + v / 4096 % 64),
      UInt8.ofNat (0x80 + v / 64 % 64), UInt8.ofNat (0x80 + v % 64)]

end LuaAssembly.Utf8
