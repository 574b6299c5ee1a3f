import LuaAssembly.Chunk.Sized
import LuaAssembly.Number

/-!
# Concise binary object representation

Data items of the concise binary object representation (CBOR), and their canonical encoding:
integers and lengths take as few bytes as possible, every length is written in front, and a
floating-point number takes the narrowest format that keeps its value.
-/
namespace LuaAssembly.Cbor

open scoped Power

/-- The major type of an item: the top three bits of its first byte. -/
inductive Major where
  | unsigned
  | negative
  | bytes
  | text
  | array
  | map
  /-- A tag in front of another item. -/
  | tag
  /-- Everything else: truth values, null, other simple values and floating-point numbers. -/
  | other
  deriving DecidableEq

namespace Major

/-- The number of a major type. -/
def number : Major → Nat
  | .unsigned => 0
  | .negative => 1
  | .bytes => 2
  | .text => 3
  | .array => 4
  | .map => 5
  | .tag => 6
  | .other => 7

/-- The major type with a given number. -/
def ofNumber : Nat → Major
  | 0 => .unsigned
  | 1 => .negative
  | 2 => .bytes
  | 3 => .text
  | 4 => .array
  | 5 => .map
  | 6 => .tag
  | _ => .other

@[simp] theorem ofNumber_number (m : Major) : ofNumber m.number = m := by
  cases m <;> rfl

end Major

/-- A data item. -/
inductive Item where
  | unsigned (n : Nat)
  /-- The integer `-1 - n`. -/
  | negative (n : Nat)
  /-- A byte string, in the chunks in which it is transmitted. -/
  | bytes (chunks : List Bytes)
  /-- A text string, in the chunks in which it is transmitted. -/
  | text (chunks : List Bytes)
  | array (items : List Item)
  /-- A map: keys and values in turn. -/
  | map (items : List Item)
  | tag (number : Nat) (content : Item)
  | simple (value : Nat)
  | float (value : Number)

namespace Item

/-- The integer `v`. -/
def ofInt (v : Int) : Item :=
  if v < 0 then .negative (-1 - v).toNat else .unsigned v.toNat

/-- The integer that a byte stands for. -/
def ofByte (b : UInt8) : Item :=
  .unsigned b.toNat

/-- A text string in one piece. -/
def ofText (s : Bytes) : Item :=
  .text [s]

/-- A truth value. -/
def ofBool (b : Bool) : Item :=
  .simple (if b then 21 else 20)

/-- The absence of a value. -/
def null : Item :=
  .simple 22

/-- Null or undefined. -/
def isNull : Item → Bool
  | .simple n => n = 22 || n = 23
  | _ => false

end Item

/-! ## Encoding -/

/-- The bytes of `x` at a width, most significant first. -/
def bigEndian (size x : Nat) : Bytes :=
  Sized.write .big size x

/-- The first byte of an item of type `m` with information `info`. -/
def firstByte (m : Major) (info : Nat) : UInt8 :=
  UInt8.ofNat (32 * m.number + info)

/-- The head of an item: its type and a number, in as few bytes as possible. -/
def head (m : Major) (n : Nat) : Bytes :=
  if n < 24 then [firstByte m n]
  else if n < 2 ^ (8 : Nat) then firstByte m 24 :: bigEndian 1 n
  else if n < 2 ^ (16 : Nat) then firstByte m 25 :: bigEndian 2 n
  else if n < 2 ^ (32 : Nat) then firstByte m 26 :: bigEndian 4 n
  else firstByte m 27 :: bigEndian 8 n

/-- A value keeps its bits when it is narrowed to a format and widened again. -/
def fits (F : BinaryFormat) (v : Number) : Bool :=
  Number.widen F (v.narrow F) = v

/-- A floating-point number in the narrowest format that keeps it.  All that are not numbers are
written alike. -/
def float (v : Number) : Bytes :=
  if v.isNaN then [firstByte .other 25, 0x7E, 0x00]
  else if fits .half v then firstByte .other 25 :: bigEndian 2 (v.narrow .half)
  else if fits .single v then firstByte .other 26 :: bigEndian 4 (v.narrow .single)
  else firstByte .other 27 :: bigEndian 8 v.bits.toNat

mutual

/-- The canonical encoding of an item. -/
def encode : Item → Bytes
  | .unsigned n => head .unsigned n
  | .negative n => head .negative n
  | .bytes chunks => head .bytes chunks.flatten.length ++ chunks.flatten
  | .text chunks => head .text chunks.flatten.length ++ chunks.flatten
  | .array items => head .array items.length ++ encodeAll items
  | .map items => head .map (items.length / 2) ++ encodeAll items
  | .tag n content => head .tag n ++ encode content
  | .simple n => head .other n
  | .float v => float v

/-- The canonical encodings of items, one after the other. -/
def encodeAll : List Item → Bytes
  | [] => []
  | item :: items => encode item ++ encodeAll items

end

end LuaAssembly.Cbor
