import LuaAssembly.Bytes.Numeral

/-!
# Chunk headers

The header of a binary chunk declares the byte order and the widths of everything after it.  Its
fields are kept as the bytes they are stored as; `Header.validate` tells whether values can be
written and read at the declared widths.
-/
namespace LuaAssembly

/-- The order of the bytes of a multi-byte value. -/
inductive ByteOrder where
  /-- The most significant byte comes first. -/
  | big
  /-- The least significant byte comes first. -/
  | little
  deriving DecidableEq

namespace ByteOrder

/-- The byte order that a header byte declares. -/
def ofTag? (tag : UInt8) : Option ByteOrder :=
  if tag = 0 then some .big else if tag = 1 then some .little else none

/-- The header byte of a byte order. -/
def tag : ByteOrder → UInt8
  | .big => 0
  | .little => 1

/-- The name of a byte order in source. -/
def name : ByteOrder → Bytes
  | .big => utf8 "BIG"
  | .little => utf8 "LITTLE"

/-- The byte order with the given name. -/
def ofName? (name : Bytes) : Option ByteOrder :=
  if name = utf8 "LITTLE" then some .little
  else if name = utf8 "BIG" then some .big
  else none

/-- A name for any header byte, whether it declares a byte order or not. -/
def nameOfTag (tag : UInt8) : Bytes :=
  match ofTag? tag with
  | some order => order.name
  | none => utf8 "Endianness(" ++ Numeral.ofNat tag.toNat ++ utf8 ")"

@[simp] theorem ofTag?_tag (order : ByteOrder) : ofTag? order.tag = some order := by
  cases order <;> rfl

@[simp] theorem ofName?_name (order : ByteOrder) : ofName? order.name = some order := by
  cases order <;> decide

end ByteOrder

/-- The header of a chunk. -/
structure Header where
  /-- The format byte; official chunks have zero. -/
  format : UInt8
  /-- The byte that declares the byte order. -/
  endianness : UInt8
  intSize : UInt8
  /-- Bytes of a string length. -/
  sizeTSize : UInt8
  instructionSize : UInt8
  numberSize : UInt8
  /-- Whether numbers are stored as integers. -/
  integral : Bool
  deriving DecidableEq, Inhabited

/-- The widths that may be from one to eight bytes. -/
inductive WidthField where
  | int
  /-- The width of string lengths. -/
  | sizeT
  | instruction
  deriving DecidableEq

namespace WidthField

/-- The name of the width in messages. -/
def name : WidthField → Bytes
  | .int => utf8 "int_size"
  | .sizeT => utf8 "size_t_size"
  | .instruction => utf8 "instruction_size"

end WidthField

/-- Why a header cannot be used. -/
inductive HeaderProblem where
  | endianness (tag : UInt8)
  /-- The width is not between one and eight. -/
  | width (field : WidthField) (size : UInt8)
  /-- Integers of this size are not stored as numbers. -/
  | integerSize (size : UInt8)
  /-- Floating-point numbers do not have this size. -/
  | floatSize (size : UInt8)
  deriving DecidableEq

/-- The text of a header problem. -/
def HeaderProblem.message : HeaderProblem → Bytes
  | .endianness tag => utf8 "invalid endianness " ++ Numeral.ofNat tag.toNat
  | .width field size =>
    utf8 "unsupported " ++ field.name ++ utf8 " " ++ Numeral.ofNat size.toNat ++
      utf8 " (want 1..8)"
  | .integerSize size =>
    utf8 "unsupported integer number_format size " ++ Numeral.ofNat size.toNat ++
      utf8 " (want 1, 2, 4 or 8)"
  | .floatSize size =>
    utf8 "unsupported float number_format size " ++ Numeral.ofNat size.toNat ++
      utf8 " (want 4 or 8)"

namespace Header

/-- A width from one to eight bytes. -/
def isWidth (size : UInt8) : Bool :=
  1 ≤ size && size ≤ 8

/-- The first problem of a header, in the order byte order, widths, number format. -/
def problem? (h : Header) : Option HeaderProblem :=
  if (ByteOrder.ofTag? h.endianness).isNone then some (.endianness h.endianness)
  else if !isWidth h.intSize then some (.width .int h.intSize)
  else if !isWidth h.sizeTSize then some (.width .sizeT h.sizeTSize)
  else if !isWidth h.instructionSize then some (.width .instruction h.instructionSize)
  else if h.integral then
    if h.numberSize = 1 ∨ h.numberSize = 2 ∨ h.numberSize = 4 ∨ h.numberSize = 8 then none
    else some (.integerSize h.numberSize)
  else if h.numberSize = 4 ∨ h.numberSize = 8 then none
  else some (.floatSize h.numberSize)

/-- Fails when values cannot be written at the declared widths. -/
def validate (h : Header) : Except HeaderProblem Unit :=
  match h.problem? with
  | some p => .error p
  | none => .ok ()

end Header

end LuaAssembly
