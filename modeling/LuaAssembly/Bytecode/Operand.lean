import LuaAssembly.Bytecode.Field
import LuaAssembly.Bytes.Numeral

/-!
# Operand formats

An operand format says in which slot of the instruction word an operand is stored and how it is
written in source.  The virtual machine uses eleven of the combinations; they are numbered.
-/
namespace LuaAssembly

/-- How an operand is written in source. -/
inductive Spelling where
  | plain
  /-- A register, `r` and an index. -/
  | register
  /-- A constant, `k` and an index. -/
  | constant
  | either
  /-- An integer stored with the signed bias. -/
  | signed
  deriving DecidableEq

/-- One operand of an instruction. -/
structure OperandFormat where
  slot : Slot
  spelling : Spelling
  deriving DecidableEq

namespace OperandFormat

/-- The formats in use, in the order of their numbers. -/
def all : List OperandFormat :=
  [ ⟨.a, .plain⟩, ⟨.a, .register⟩,
    ⟨.b, .plain⟩, ⟨.b, .register⟩, ⟨.b, .either⟩,
    ⟨.c, .plain⟩, ⟨.c, .register⟩, ⟨.c, .either⟩,
    ⟨.bx, .plain⟩, ⟨.bx, .constant⟩, ⟨.bx, .signed⟩ ]

/-- The conventional name: the slot, with letters for what it may hold. -/
def name (f : OperandFormat) : Bytes :=
  match f.spelling with
  | .plain => utf8 f.slot.name
  | .register => utf8 f.slot.name ++ utf8 "R"
  | .constant => utf8 f.slot.name ++ utf8 "K"
  | .either => utf8 f.slot.name ++ utf8 "RK"
  | .signed => utf8 "s" ++ utf8 f.slot.name

/-- The format with the given number. -/
def ofNumber? (n : Nat) : Option OperandFormat :=
  all[n]?

/-- A name for any number, whether a format has it or not. -/
def nameOfNumber (n : Nat) : Bytes :=
  match ofNumber? n with
  | some f => f.name
  | none => utf8 "OperandFormat(" ++ Numeral.ofNat n ++ utf8 ")"

/-- The slot name for any number; a question mark when no format has it. -/
def slotNameOfNumber (n : Nat) : Bytes :=
  match ofNumber? n with
  | some f => utf8 f.slot.name
  | none => utf8 "?"

/-- What is wrong with a number that no format has. -/
def unknownMessage (n : Nat) : Bytes :=
  utf8 "unhandled operand format: " ++ nameOfNumber n

end OperandFormat

end LuaAssembly
