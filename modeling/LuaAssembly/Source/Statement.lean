import LuaAssembly.Bytecode.Instruction
import LuaAssembly.Chunk.Basic
import LuaAssembly.Number.Numeral
import LuaAssembly.Source.Reading

/-!
# Statements

After the version, source is a sequence of statements.  A statement begins with a directive or a
mnemonic, its head, which fixes the arguments that follow.  This file says how each argument is
read and what statement the arguments make.
-/
namespace LuaAssembly

/-- A statement with its arguments. -/
inductive Statement where
  | format (value : UInt8)
  | endianness (order : ByteOrder)
  | intSize (size : UInt8)
  | sizeTSize (size : UInt8)
  | instructionSize (size : UInt8)
  | numberFormat (integral : Bool) (size : UInt8)
  /-- Declares a function; the position is that of its name. -/
  | function (name : Bytes) (pos : Position)
  | source (name : Bytes)
  | lineDefined (line : Int)
  | lastLineDefined (line : Int)
  | numParams (count : UInt8)
  | isVararg (flags : UInt8)
  | maxStackSize (size : UInt8)
  | constant (value : Constant)
  | line (line : Int)
  | localVar (value : LocalVar)
  | upvalue (value : Upvalue)
  | instruction (word : Word)
  deriving DecidableEq

/-! ## Arguments -/

namespace Argument

/-- A string literal. -/
def string (t : Token) : Except Cause Bytes :=
  match Literal.unquote t.literal with
  | .ok s => .ok s
  | .error problem => .error (.literal t.literal problem)

/-- A name: a word as it stands, or a string literal. -/
def name (t : Token) : Except Cause Bytes :=
  if t.kind = .string then string t else .ok t.literal

/-- An integer of 32 bits. -/
def integer (t : Token) : Except Cause Int :=
  match Numeral.signed? 32 t.literal with
  | some v => .ok v
  | none => .error (.expectedNumber t.literal)

/-- An integer that fits one byte, as the argument of a directive. -/
def byte (d : Directive) (t : Token) : Except Cause UInt8 :=
  match integer t with
  | .ok v => if 0 ≤ v ∧ v ≤ 255 then .ok (UInt8.ofNat v.toNat) else .error (.valueRange d v)
  | .error cause => .error cause

/-- A truth value. -/
def boolean (t : Token) : Except Cause Bool :=
  if t.literal = utf8 "true" then .ok true
  else if t.literal = utf8 "false" then .ok false
  else .error (.expectedBoolean t.literal)

/-- The name of a byte order. -/
def byteOrder (t : Token) : Except Cause ByteOrder :=
  match name t with
  | .ok s =>
    match ByteOrder.ofName? s with
    | some order => .ok order
    | none => .error (.unknownEndianness s)
  | .error cause => .error cause

/-- The word for the representation of numbers; the result tells whether they are integers. -/
def numberKind (t : Token) : Except Cause Bool :=
  match name t with
  | .ok s =>
    if s = utf8 "integer" then .ok true
    else if s = utf8 "float" then .ok false
    else .error (.unknownNumberFormat s)
  | .error cause => .error cause

/-- A letter and an index, such as `r12` or `k3`. -/
def indexed? (letter : UInt8) : Bytes → Option Int
  | [] => none
  | b :: rest => if b = letter then Numeral.signed? 32 rest else none

/-- The index of a register. -/
def register? (t : Token) : Option Int :=
  indexed? 0x72 t.literal

/-- The index of a constant. -/
def constant? (t : Token) : Option Int :=
  indexed? 0x6B t.literal

/-- A value in a given range, as an operand. -/
def inRange (f : OperandFormat) (op : Opcode) (lo hi v : Int) : Except Cause Int :=
  if lo ≤ v ∧ v ≤ hi then .ok v else .error (.operandRange f.slot op v)

/-- What is stored for an operand. -/
def operand (op : Opcode) (f : OperandFormat) (t : Token) : Except Cause Int :=
  let whole := inRange f op 0 f.slot.field.max
  match f.spelling with
  | .plain =>
    match integer t with
    | .ok v => whole v
    | .error cause => .error cause
  | .register =>
    match register? t with
    | some v => whole v
    | none => .error (.expectedRegister t.literal)
  | .constant =>
    match constant? t with
    | some v => whole v
    | none => .error (.expectedConstant t.literal)
  | .either =>
    match register? t, constant? t with
    | some v, _ => inRange f op 0 Word.maxIndex v
    | none, some v => (inRange f op 0 Word.maxIndex v).map (· + Word.constantBit)
    | none, none => .error (.expectedRegisterOrConstant t.literal)
  | .signed =>
    match integer t with
    | .ok v =>
      (inRange f op Word.signedRange.1 Word.signedRange.2 v).map (· + Word.signedBias)
    | .error cause => .error cause

end Argument

/-! ## Heads -/

/-- What a statement begins with. -/
inductive Head where
  | directive (d : Directive)
  | mnemonic (op : Opcode)
  deriving DecidableEq

namespace Head

/-- The head that a token stands for. -/
def ofToken? (t : Token) : Option Head :=
  match Directive.ofToken? t.literal with
  | some d => some (.directive d)
  | none => if t.kind = .word then (Opcode.ofMnemonic? t.literal).map .mnemonic else none

/-- The value of a constant: a string literal is a string, anything else must be a number. -/
def constantValue : Reading Constant :=
  .next fun t =>
    if t.kind = .string then
      match Argument.string t with
      | .ok s => .done (.ofString s)
      | .error cause => .error t.pos cause
    else
      match Number.ofNumeral? t.literal with
      | some v => .done (.ofNumber v)
      | none => .fail (.fault ⟨t.pos, t.literal⟩)

/-- Reads operands and packs them into the word `w`. -/
def operands (op : Opcode) (w : Word) : List OperandFormat → Reading Word
  | [] => .done w
  | f :: fs =>
    (Reading.argument (Argument.operand op f)).andThen fun v =>
      operands op (w ||| f.slot.field.encode v) fs

/-- Reads the arguments of a directive. -/
def directiveArguments (d : Directive) : Reading Statement := do
  match d with
  | .format => return .format (← .argument (Argument.byte d))
  | .endianness => return .endianness (← .argument Argument.byteOrder)
  | .intSize => return .intSize (← .argument (Argument.byte d))
  | .sizeTSize => return .sizeTSize (← .argument (Argument.byte d))
  | .instructionSize => return .instructionSize (← .argument (Argument.byte d))
  | .numberFormat =>
    let integral ← .argument Argument.numberKind
    let size ← .argument (Argument.byte d)
    return .numberFormat integral size
  | .function => .argument fun t => (Argument.name t).map fun name => .function name t.pos
  | .source => return .source (← .argument Argument.string)
  | .lineDefined => return .lineDefined (← .argument Argument.integer)
  | .lastLineDefined => return .lastLineDefined (← .argument Argument.integer)
  | .numParams => return .numParams (← .argument (Argument.byte d))
  | .isVararg => return .isVararg (← .argument (Argument.byte d))
  | .maxStackSize => return .maxStackSize (← .argument (Argument.byte d))
  | .constant =>
    let _ ← Reading.argument Argument.name
    return .constant (← constantValue)
  | .line => return .line (← .argument Argument.integer)
  | .localVar =>
    let name ← .argument Argument.string
    let first ← .argument Argument.integer
    let last ← .argument Argument.integer
    return .localVar ⟨name, first, last⟩
  | .upvalue =>
    let name ← .argument Argument.name
    let index ← .argument Argument.integer
    let inStack ← .argument Argument.boolean
    return .upvalue ⟨name, index, inStack⟩

/-- Reads the arguments of a statement. -/
def arguments : Head → Reading Statement
  | .directive d => directiveArguments d
  | .mnemonic op => do
    return .instruction (← operands op (Word.opcodeField.encode op.number) op.operands)

end Head

end LuaAssembly
