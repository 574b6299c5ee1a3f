import LuaAssembly.Bytecode.Opcode
import LuaAssembly.Source.Directive

/-!
# The words of the language

What an editor offers for the beginning of a word: directives when it starts with a point, and
otherwise mnemonics, which may be written in either case.  And the short description, in markdown,
that it shows for the word under the pointer.
-/
namespace LuaAssembly.Editor

/-! ## Completion -/

/-- What a suggestion stands for. -/
inductive SuggestionKind where
  /-- A directive. -/
  | keyword
  /-- A mnemonic. -/
  | function
  deriving DecidableEq

/-- The number of a kind in the editor protocol. -/
def SuggestionKind.number : SuggestionKind → Nat
  | .keyword => 14
  | .function => 3

/-- A word that is offered. -/
structure Suggestion where
  label : Bytes
  kind : SuggestionKind
  /-- Its arguments, in short. -/
  detail : Bytes
  deriving DecidableEq

namespace Suggestion

/-- The suggestion for a word that starts with a point. -/
def ofDirective (token : Bytes) : Suggestion :=
  match Directive.ofToken? token with
  | some d => ⟨token, .keyword, d.usage⟩
  | none => ⟨token, .keyword, utf8 "directive"⟩

/-- The suggestion for a mnemonic. -/
def ofOpcode (op : Opcode) : Suggestion :=
  ⟨op.mnemonic, .function, Bytes.join (utf8 " ") (op.operands.map (·.name))⟩

end Suggestion

/-- The words that start with `beginning`, in the order of bytes. -/
def complete (beginning : Bytes) : List Suggestion :=
  if beginning.head? = some 0x2E then
    (Directive.tokens.filter beginning.isPrefixOf).map .ofDirective
  else
    let names := Opcode.all.filter fun op => (Opcode.foldCase beginning).isPrefixOf op.mnemonic
    (names.map .ofOpcode).mergeSort fun x y => Bytes.le x.label y.label

/-! ## Hovering -/

/-- The description of a directive. -/
def describeDirective (d : Directive) : Bytes :=
  utf8 "**" ++ d.token ++ utf8 "** " ++ d.usage ++ utf8 "\n"

/-- The description of an operand. -/
def describeOperand (f : OperandFormat) : Bytes :=
  utf8 "- `" ++ f.name ++ utf8 "` in field " ++ utf8 f.slot.name ++ utf8 "\n"

/-- The description of an opcode. -/
def describeOpcode (op : Opcode) : Bytes :=
  utf8 "**" ++ op.mnemonic ++ utf8 "** (opcode " ++ Numeral.ofNat op.number ++ utf8 ")\n\n" ++
    op.operands.flatMap describeOperand

/-- The description of a word that is a directive or a mnemonic. -/
def hover? (word : Bytes) : Option Bytes :=
  match Directive.ofToken? word with
  | some d => some (describeDirective d)
  | none => (Opcode.ofMnemonic? word).map describeOpcode

end LuaAssembly.Editor
