import LuaAssembly.Bytecode.Instruction

/-!
# Code listings

One line per instruction, in source form, with a comment that gives the position of the
instruction, the target of a jump, and the constants that its operands name.
-/
namespace LuaAssembly.CodeListing

/-- Describes constants by their index; an empty description says nothing. -/
abbrev Namer := Int → Bytes

/-- The remarks on the instruction at position `pc`. -/
def notes (names : Option Namer) (pc : Nat) (w : Word) (op : Opcode) : List Bytes :=
  let place := utf8 "[" ++ Numeral.ofNat pc ++ utf8 "]"
  let target : List Bytes :=
    if op.isJump then [utf8 "to [" ++ Numeral.ofInt (pc + 1 + w.signed) ++ utf8 "]"] else []
  let named : List Bytes :=
    match names with
    | none => []
    | some names =>
      op.operands.filterMap fun f =>
        let x := w.operand f
        if x.constant then
          let description := names x.value
          if description = [] then none
          else some (utf8 "k" ++ Numeral.ofInt x.value ++ utf8 " = " ++ description)
        else none
  place :: target ++ named

/-- The line of the instruction at position `pc`. -/
def line (names : Option Namer) (pc : Nat) (w : Word) : Bytes :=
  match w.opcode? with
  | none => w.text
  | some op => w.text.padRight 24 ++ utf8 " ; " ++ Bytes.join (utf8 " ") (notes names pc w op)

/-- The lines of a piece of code whose first instruction is at position `pc`. -/
def linesFrom (names : Option Namer) : Nat → List Word → List Bytes
  | _, [] => []
  | pc, w :: ws => line names pc w :: linesFrom names (pc + 1) ws

/-- The listing of a piece of code, each line ended by a newline. -/
def render (names : Option Namer) (code : List Word) : Bytes :=
  (linesFrom names 0 code).flatMap fun l => l ++ utf8 "\n"

end LuaAssembly.CodeListing
