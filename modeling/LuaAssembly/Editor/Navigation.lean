import LuaAssembly.Bytes.Numeral
import LuaAssembly.Editor.Place
import LuaAssembly.Source.Directive

/-!
# Finding the way in a text

The functions that a text declares, for an outline, and the definitions of constants.  An operand
such as `k3` refers to the constant that the fourth constant directive of its function adds.  Both
work on tokens, so they also work in a text that does not assemble.
-/
namespace LuaAssembly.Editor

/-! ## Definitions -/

/-- The index in a word such as `k12`. -/
def constantIndex? : Bytes → Option Nat
  | 0x6B :: rest =>
    match Numeral.signed? 64 rest with
    | some k => if 0 ≤ k then some k.toNat else none
    | none => none
  | _ => none

/-- The constant directives of the function that is declared last on or before a line.  `found`
holds those read so far of the current function, the newest first. -/
def constantsOf (line : Int) : List Token → List Token → List Token
  | found, [] => found.reverse
  | found, t :: rest =>
    if t.literal = Directive.function.token then
      if line < t.pos.line then found.reverse else constantsOf line [] rest
    else if t.literal = Directive.constant.token then constantsOf line (t :: found) rest
    else constantsOf line found rest

/-- The directive that adds constant `k` of the function around a line. -/
def constantDefinition? (text : Bytes) (line : Int) (k : Nat) : Option Token :=
  (constantsOf line [] (tokenize text))[k]?

/-! ## Symbols -/

/-- A declared function. -/
structure Symbol where
  /-- The name as it is written. -/
  name : Bytes
  /-- The range of the whole declaration. -/
  range : Range
  /-- The range of the name. -/
  selection : Range
  deriving DecidableEq

/-- The symbol of a function directive and the name after it. -/
def Symbol.ofTokens (directive name : Token) : Symbol :=
  ⟨name.literal, .between directive.pos name.stop, .ofToken name⟩

/-- The functions that tokens declare. -/
def symbolsOf : List Token → List Symbol
  | t :: name :: rest =>
    if t.literal = Directive.function.token then .ofTokens t name :: symbolsOf (name :: rest)
    else symbolsOf (name :: rest)
  | _ => []

/-- The functions that a text declares. -/
def symbols (text : Bytes) : List Symbol :=
  symbolsOf (tokenize text)

end LuaAssembly.Editor
