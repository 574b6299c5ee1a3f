import LuaAssembly.Bytes

/-!
# Bit fields of an instruction word

An instruction is one 32-bit word, cut into fields.  A field is given by its width and the
position of its lowest bit.  Operand values are integers, so that values outside a field can be
spoken of; `Field.check` says which values fit.
-/
namespace LuaAssembly

open scoped Power

/-- An instruction word. -/
abbrev Word := BitVec 32

/-- A range of bits inside an instruction word. -/
structure Field where
  width : Nat
  /-- Position of the least significant bit. -/
  offset : Nat
  deriving DecidableEq

namespace Field

/-- The largest value of the field.  Values are 64-bit integers, so a field of 64 or more bits has
no largest value and `-1`, all bits set, stands in its place. -/
def max (f : Field) : Int :=
  if f.width < 64 then 2 ^ f.width - 1 else -1

/-- The value fits the field. -/
def check (f : Field) (v : Int) : Bool :=
  decide (0 ≤ v) && decide (v ≤ f.max)

/-- The low 32 bits of a value, moved into position.  Values that do not fit are not cut. -/
def encode (f : Field) (v : Int) : Word :=
  BitVec.ofInt 32 v <<< f.offset

/-- The value of the field in a word. -/
def decode (f : Field) (w : Word) : Int :=
  let bits := w.toNat / 2 ^ f.offset
  if f.width < 64 then ((bits % 2 ^ f.width : Nat) : Int) else (bits : Int)

theorem check_iff (f : Field) (v : Int) : f.check v = true ↔ 0 ≤ v ∧ v ≤ f.max := by
  simp [check]

/-- What is read from a field narrower than 64 bits fits it. -/
theorem check_decode (f : Field) (w : Word) (h : f.width < 64) : f.check (f.decode w) = true := by
  have hlt : w.toNat / 2 ^ f.offset % 2 ^ f.width < 2 ^ f.width :=
    Nat.mod_lt _ (Nat.two_pow_pos _)
  have hcast : ((2 ^ f.width : Nat) : Int) = 2 ^ f.width := by simp
  simp only [check_iff, decode, max, h, if_true]
  omega

end Field

/-! ## The fields of a Lua 5.1 instruction -/

/-- A field of the instruction word that an operand can be stored in. -/
inductive Slot where
  /-- The eight bits above the opcode. -/
  | a
  /-- The top nine bits. -/
  | b
  /-- The nine bits below `b`. -/
  | c
  /-- The eighteen bits of `b` and `c` together. -/
  | bx
  deriving DecidableEq

namespace Slot

/-- Where the slot lies in the word. -/
def field : Slot → Field
  | .a => ⟨8, 6⟩
  | .b => ⟨9, 23⟩
  | .c => ⟨9, 14⟩
  | .bx => ⟨18, 14⟩

/-- The name of the slot. -/
def name : Slot → String
  | .a => "A"
  | .b => "B"
  | .c => "C"
  | .bx => "Bx"

end Slot

namespace Word

/-- The field that holds the opcode. -/
def opcodeField : Field := ⟨6, 0⟩

/-- What is added to a signed operand before it is stored in `bx`. -/
def signedBias : Int := 2 ^ (17 : Nat) - 1

/-- The bit of a `b` or `c` operand that selects a constant instead of a register. -/
def constantBit : Int := 2 ^ (8 : Nat)

/-- The largest register or constant that an operand choosing between the two can name. -/
def maxIndex : Int := constantBit - 1

/-- The least and the largest signed operand. -/
def signedRange : Int × Int :=
  (-signedBias, Slot.bx.field.max - signedBias)

end Word

end LuaAssembly
