import LuaAssembly.Bytes

/-!
# Directives

Besides instructions, source is made of directives: words that start with a point and take a fixed
sequence of arguments.
-/
namespace LuaAssembly

/-- A directive. -/
inductive Directive where
  | format
  | endianness
  | intSize
  | sizeTSize
  | instructionSize
  | numberFormat
  | function
  | source
  | lineDefined
  | lastLineDefined
  | numParams
  | isVararg
  | maxStackSize
  | constant
  | line
  | localVar
  | upvalue
  deriving DecidableEq

/-- What a directive acts on. -/
inductive DirectiveKind where
  | header
  /-- It declares a function and makes it the current one. -/
  | newFunction
  | function
  deriving DecidableEq

/-- The number of a kind. -/
def DirectiveKind.number : DirectiveKind → Nat
  | .header => 0
  | .newFunction => 1
  | .function => 2

namespace Directive

/-- Every directive. -/
def all : List Directive :=
  [ .format, .endianness, .intSize, .sizeTSize, .instructionSize, .numberFormat, .function,
    .source, .lineDefined, .lastLineDefined, .numParams, .isVararg, .maxStackSize, .constant,
    .line, .localVar, .upvalue ]

/-- How the directive is written. -/
def token : Directive → Bytes
  | .format => utf8 ".format"
  | .endianness => utf8 ".endianness"
  | .intSize => utf8 ".int_size"
  | .sizeTSize => utf8 ".size_t_size"
  | .instructionSize => utf8 ".instruction_size"
  | .numberFormat => utf8 ".number_format"
  | .function => utf8 ".function"
  | .source => utf8 ".source"
  | .lineDefined => utf8 ".linedefined"
  | .lastLineDefined => utf8 ".lastlinedefined"
  | .numParams => utf8 ".numparams"
  | .isVararg => utf8 ".is_vararg"
  | .maxStackSize => utf8 ".maxstacksize"
  | .constant => utf8 ".constant"
  | .line => utf8 ".line"
  | .localVar => utf8 ".local"
  | .upvalue => utf8 ".upvalue"

/-- What the directive acts on. -/
def kind : Directive → DirectiveKind
  | .format | .endianness | .intSize | .sizeTSize | .instructionSize | .numberFormat => .header
  | .function => .newFunction
  | .source | .lineDefined | .lastLineDefined | .numParams | .isVararg | .maxStackSize
  | .constant | .line | .localVar | .upvalue => .function

/-- The arguments of the directive, in short. -/
def usage : Directive → Bytes
  | .format => utf8 "<int>"
  | .endianness => utf8 "LITTLE|BIG"
  | .intSize => utf8 "<bytes>"
  | .sizeTSize => utf8 "<bytes>"
  | .instructionSize => utf8 "<bytes>"
  | .numberFormat => utf8 "integer|float <bytes>"
  | .function => utf8 "<name>"
  | .source => utf8 "<string>"
  | .lineDefined => utf8 "<int>"
  | .lastLineDefined => utf8 "<int>"
  | .numParams => utf8 "<int>"
  | .isVararg => utf8 "<int>"
  | .maxStackSize => utf8 "<int>"
  | .constant => utf8 "<name> <string|number>"
  | .line => utf8 "<int>"
  | .localVar => utf8 "<string> <begin> <end>"
  | .upvalue => utf8 "<name> <index> <instack>"

/-- The directive that a word spells.  Case matters. -/
def ofToken? (word : Bytes) : Option Directive :=
  all.find? fun d => d.token = word

/-- The word that opens every source text. -/
def versionToken : Bytes := utf8 ".version"

/-- Every word that starts with a point and means something, in the order of bytes. -/
def tokens : List Bytes :=
  (versionToken :: all.map token).mergeSort Bytes.le

@[simp] theorem ofToken?_token (d : Directive) : ofToken? d.token = some d := by
  cases d <;> decide

end Directive

end LuaAssembly
