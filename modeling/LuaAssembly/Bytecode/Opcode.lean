import LuaAssembly.Bytecode.Operand

/-!
# Opcodes

The thirty-eight operations of the Lua 5.1 virtual machine: their numbers, their mnemonics and the
operands they take, in source order.
-/
namespace LuaAssembly

/-- An operation of the virtual machine. -/
inductive Opcode where
  | move
  | loadk
  /-- Loads a boolean and may skip the next instruction. -/
  | loadbool
  /-- Clears a range of registers. -/
  | loadnil
  | getupval
  | getglobal
  | gettable
  | setglobal
  | setupval
  | settable
  | newtable
  /-- Prepares a method call. -/
  | self
  | add
  | sub
  | mul
  | div
  | mod
  | pow
  /-- Changes the sign. -/
  | unm
  | not
  | len
  /-- Joins a range of registers. -/
  | concat
  | jmp
  | eq
  | lt
  | le
  | test
  /-- Tests a truth value and copies it. -/
  | testset
  | call
  | tailcall
  | ret
  /-- Closes a numeric loop. -/
  | forloop
  /-- Opens a numeric loop. -/
  | forprep
  /-- Steps an iterator loop. -/
  | tforloop
  /-- Fills the array part of a table. -/
  | setlist
  /-- Closes upvalues. -/
  | close
  | closure
  /-- Loads the extra arguments. -/
  | vararg
  deriving DecidableEq

namespace Opcode

/-- The operations in the order of their numbers. -/
def all : List Opcode :=
  [ .move, .loadk, .loadbool, .loadnil, .getupval, .getglobal, .gettable, .setglobal,
    .setupval, .settable, .newtable, .self, .add, .sub, .mul, .div, .mod, .pow, .unm, .not,
    .len, .concat, .jmp, .eq, .lt, .le, .test, .testset, .call, .tailcall, .ret, .forloop,
    .forprep, .tforloop, .setlist, .close, .closure, .vararg ]

/-- The number that stands for the operation in an instruction word. -/
def number : Opcode → Nat
  | .move => 0
  | .loadk => 1
  | .loadbool => 2
  | .loadnil => 3
  | .getupval => 4
  | .getglobal => 5
  | .gettable => 6
  | .setglobal => 7
  | .setupval => 8
  | .settable => 9
  | .newtable => 10
  | .self => 11
  | .add => 12
  | .sub => 13
  | .mul => 14
  | .div => 15
  | .mod => 16
  | .pow => 17
  | .unm => 18
  | .not => 19
  | .len => 20
  | .concat => 21
  | .jmp => 22
  | .eq => 23
  | .lt => 24
  | .le => 25
  | .test => 26
  | .testset => 27
  | .call => 28
  | .tailcall => 29
  | .ret => 30
  | .forloop => 31
  | .forprep => 32
  | .tforloop => 33
  | .setlist => 34
  | .close => 35
  | .closure => 36
  | .vararg => 37

/-- The name of the operation in source, in lower case. -/
def mnemonic : Opcode → Bytes
  | .move => utf8 "move"
  | .loadk => utf8 "loadk"
  | .loadbool => utf8 "loadbool"
  | .loadnil => utf8 "loadnil"
  | .getupval => utf8 "getupval"
  | .getglobal => utf8 "getglobal"
  | .gettable => utf8 "gettable"
  | .setglobal => utf8 "setglobal"
  | .setupval => utf8 "setupval"
  | .settable => utf8 "settable"
  | .newtable => utf8 "newtable"
  | .self => utf8 "self"
  | .add => utf8 "add"
  | .sub => utf8 "sub"
  | .mul => utf8 "mul"
  | .div => utf8 "div"
  | .mod => utf8 "mod"
  | .pow => utf8 "pow"
  | .unm => utf8 "unm"
  | .not => utf8 "not"
  | .len => utf8 "len"
  | .concat => utf8 "concat"
  | .jmp => utf8 "jmp"
  | .eq => utf8 "eq"
  | .lt => utf8 "lt"
  | .le => utf8 "le"
  | .test => utf8 "test"
  | .testset => utf8 "testset"
  | .call => utf8 "call"
  | .tailcall => utf8 "tailcall"
  | .ret => utf8 "return"
  | .forloop => utf8 "forloop"
  | .forprep => utf8 "forprep"
  | .tforloop => utf8 "tforloop"
  | .setlist => utf8 "setlist"
  | .close => utf8 "close"
  | .closure => utf8 "closure"
  | .vararg => utf8 "vararg"

/-- The operands of the operation, in source order. -/
def operands : Opcode → List OperandFormat
  | .move | .loadnil | .unm | .not | .len => [⟨.a, .register⟩, ⟨.b, .register⟩]
  | .loadk | .getglobal | .setglobal => [⟨.a, .register⟩, ⟨.bx, .constant⟩]
  | .loadbool | .newtable | .call | .tailcall | .setlist =>
    [⟨.a, .register⟩, ⟨.b, .plain⟩, ⟨.c, .plain⟩]
  | .getupval | .setupval | .ret | .vararg => [⟨.a, .register⟩, ⟨.b, .plain⟩]
  | .gettable | .self => [⟨.a, .register⟩, ⟨.b, .register⟩, ⟨.c, .either⟩]
  | .settable | .add | .sub | .mul | .div | .mod | .pow =>
    [⟨.a, .register⟩, ⟨.b, .either⟩, ⟨.c, .either⟩]
  | .concat => [⟨.a, .register⟩, ⟨.b, .register⟩, ⟨.c, .register⟩]
  | .jmp => [⟨.bx, .signed⟩]
  | .eq | .lt | .le => [⟨.a, .plain⟩, ⟨.b, .either⟩, ⟨.c, .either⟩]
  | .test | .tforloop => [⟨.a, .register⟩, ⟨.c, .plain⟩]
  | .testset => [⟨.a, .register⟩, ⟨.b, .register⟩, ⟨.c, .plain⟩]
  | .forloop | .forprep => [⟨.a, .register⟩, ⟨.bx, .signed⟩]
  | .close => [⟨.a, .register⟩]
  | .closure => [⟨.a, .register⟩, ⟨.bx, .plain⟩]

/-- The operation with the given number. -/
def ofNumber? (n : Nat) : Option Opcode :=
  all[n]?

/-- A name for any number, whether an operation has it or not. -/
def nameOfNumber (n : Nat) : Bytes :=
  match ofNumber? n with
  | some op => op.mnemonic
  | none => utf8 "unknown(" ++ Numeral.ofNat n ++ utf8 ")"

/-- The signed operand of these operations is a jump distance. -/
def isJump : Opcode → Bool
  | .jmp | .forloop | .forprep => true
  | _ => false

/-- Lower case as far as it matters for comparison with ASCII words: besides the letters of ASCII
there are two characters whose lower case is an ASCII letter, the Kelvin sign and the capital I
with a dot. -/
def foldCase : Bytes → Bytes
  | 0xE2 :: 0x84 :: 0xAA :: rest => 0x6B :: foldCase rest
  | 0xC4 :: 0xB0 :: rest => 0x69 :: foldCase rest
  | b :: rest => Bytes.lowerAscii b :: foldCase rest
  | [] => []

/-- The operation that a word names, in any mixture of upper and lower case. -/
def ofMnemonic? (word : Bytes) : Option Opcode :=
  let folded := foldCase word
  all.find? fun op => op.mnemonic = folded

theorem number_lt (op : Opcode) : op.number < 38 := by
  cases op <;> decide

@[simp] theorem ofNumber?_number (op : Opcode) : ofNumber? op.number = some op := by
  cases op <;> rfl

/-- Exactly the numbers below thirty-eight stand for an operation. -/
theorem ofNumber?_eq_none_iff (n : Nat) : ofNumber? n = none ↔ 38 ≤ n := by
  simp [ofNumber?, all]

end Opcode

end LuaAssembly
