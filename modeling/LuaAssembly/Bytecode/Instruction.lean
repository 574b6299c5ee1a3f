import LuaAssembly.Bytecode.Opcode

/-!
# Instructions

Reading an instruction word: its operation, its fields, and its operands as they are written in
source.
-/
namespace LuaAssembly

/-- An operand as it is written: an index or integer, and whether it names a constant. -/
structure Operand where
  value : Int
  /-- Whether the operand names a constant. -/
  constant : Bool
  deriving DecidableEq

namespace Word

/-- The number in the opcode field. -/
def opcodeNumber (w : Word) : Nat :=
  (opcodeField.decode w).toNat

/-- The operation of the instruction, if the opcode field holds one. -/
def opcode? (w : Word) : Option Opcode :=
  Opcode.ofNumber? w.opcodeNumber

/-- The value stored in a slot. -/
def slot (w : Word) (s : Slot) : Int :=
  s.field.decode w

/-- The `bx` slot as a signed operand. -/
def signed (w : Word) : Int :=
  w.slot .bx - signedBias

/-- The operand that a format finds in the word. -/
def operand (w : Word) (f : OperandFormat) : Operand :=
  let stored := w.slot f.slot
  match f.spelling with
  | .plain | .register => ⟨stored, false⟩
  | .constant => ⟨stored, true⟩
  | .either =>
    if stored < constantBit then ⟨stored, false⟩ else ⟨stored - constantBit, true⟩
  | .signed => ⟨stored - signedBias, false⟩

/-- An operand in source form. -/
def operandText (w : Word) (f : OperandFormat) : Bytes :=
  let x := w.operand f
  let letter : Bytes :=
    match f.spelling with
    | .plain | .signed => []
    | .register => utf8 "r"
    | .constant => utf8 "k"
    | .either => if x.constant then utf8 "k" else utf8 "r"
  letter ++ Numeral.ofInt x.value

/-- The instruction in source form.  A word without an operation becomes a comment. -/
def text (w : Word) : Bytes :=
  match w.opcode? with
  | some op => op.mnemonic ++ op.operands.flatMap fun f => utf8 " " ++ w.operandText f
  | none => utf8 "; unknown instruction 0x" ++ Numeral.hexUpper 8 w.toNat

end Word

end LuaAssembly
