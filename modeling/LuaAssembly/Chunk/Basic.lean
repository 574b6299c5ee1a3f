import LuaAssembly.Bytecode.Field
import LuaAssembly.Chunk.Header
import LuaAssembly.Number.Shortest
import LuaAssembly.Source.Literal

/-!
# Chunks

A chunk is a header and a tree of function prototypes.  The tree type is shared with the exported
documents, so what is done to every function of a tree is written once.
-/
namespace LuaAssembly

/-! ## Constants -/

/-- One entry of a constant pool: a tag, and room for a number and for a string.  The tag selects
which of the two counts. -/
structure Constant where
  tag : UInt8
  /-- The number, when the tag says number. -/
  number : Number
  /-- The raw bytes of the string, when the tag says string. -/
  string : Bytes
  deriving DecidableEq

namespace Constant

/-- The tag of numbers. -/
def numberTag : UInt8 := 3

/-- The tag of strings. -/
def stringTag : UInt8 := 4

/-- A number constant. -/
def ofNumber (v : Number) : Constant := ⟨numberTag, v, []⟩

/-- A string constant. -/
def ofString (s : Bytes) : Constant := ⟨stringTag, .zero, s⟩

/-- A name for any tag byte. -/
def tagName (tag : UInt8) : Bytes :=
  if tag = numberTag then utf8 "number"
  else if tag = stringTag then utf8 "string"
  else utf8 "ConstantType(" ++ Numeral.ofNat tag.toNat ++ utf8 ")"

/-- The constant in source form; the name of the tag when it has none. -/
def describe (k : Constant) : Bytes :=
  if k.tag = numberTag then k.number.text
  else if k.tag = stringTag then Literal.quote k.string
  else tagName k.tag

end Constant

/-! ## Prototypes -/

/-- A local variable, live from instruction `first` up to but not including `last`. -/
structure LocalVar where
  name : Bytes
  /-- The first instruction at which it is live. -/
  first : Int
  /-- The first instruction at which it is dead again. -/
  last : Int
  deriving DecidableEq

/-- A variable that a closure captures.  Only the name is part of the binary format. -/
structure Upvalue where
  name : Bytes
  /-- Its index in the enclosing function. -/
  index : Int
  /-- Whether it is a register of the enclosing function. -/
  inStack : Bool
  deriving DecidableEq

/-- A function prototype, apart from the functions nested in it. -/
structure Prototype where
  source : Bytes
  lineDefined : Int
  lastLineDefined : Int
  numParams : UInt8
  /-- Vararg flags. -/
  isVararg : UInt8
  /-- Number of registers. -/
  maxStackSize : UInt8
  code : List Word
  constants : List Constant
  /-- The source line of each instruction. -/
  lines : List Int
  locals : List LocalVar
  upvalues : List Upvalue
  deriving DecidableEq

/-! ## Function trees -/

/-- A tree of functions with the data `α` at each function.  A place in the tree may be left
without a function. -/
inductive FunctionTree (α : Type) where
  /-- A place without a function. -/
  | absent
  /-- A function and the functions nested in it, in order. -/
  | node (body : α) (nested : List (FunctionTree α))

namespace FunctionTree

variable {α β : Type}

instance : Inhabited (FunctionTree α) := ⟨.absent⟩

/-- No function at the root. -/
def isAbsent : FunctionTree α → Bool
  | .absent => true
  | .node _ _ => false

/-- The path of the function at place `i` inside the function at `path`. -/
def childPath (path : Bytes) (i : Nat) : Bytes :=
  path ++ utf8 "/f" ++ Numeral.ofNat i

mutual

/-- The functions of the tree with their paths, each before the functions nested in it; nothing
when some place of the tree has no function. -/
def walk? (path : Bytes) : FunctionTree α → Option (List (Bytes × α))
  | .absent => none
  | .node body nested => (walkAll? path 0 nested).map ((path, body) :: ·)

/-- The functions of the trees nested at `path` from place `i` on. -/
def walkAll? (path : Bytes) (i : Nat) : List (FunctionTree α) → Option (List (Bytes × α))
  | [] => some []
  | t :: ts =>
    match walk? (childPath path i) t, walkAll? path (i + 1) ts with
    | some first, some rest => some (first ++ rest)
    | _, _ => none

end

mutual

/-- Converts every function of the tree, given its path; nothing when some place of the tree has
no function. -/
def convert? (f : Bytes → α → β) (path : Bytes) : FunctionTree α → Option (FunctionTree β)
  | .absent => none
  | .node body nested => (convertAll? f path 0 nested).map (.node (f path body) ·)

/-- Converts the trees nested at `path` from place `i` on. -/
def convertAll? (f : Bytes → α → β) (path : Bytes) (i : Nat) :
    List (FunctionTree α) → Option (List (FunctionTree β))
  | [] => some []
  | t :: ts =>
    match convert? f (childPath path i) t, convertAll? f path (i + 1) ts with
    | some first, some rest => some (first :: rest)
    | _, _ => none

end

mutual

/-- Applies a function that can fail to every function of the tree, to each before those nested in
it, and stops at the first failure. -/
def traverse {ε : Type} (f : α → Except ε β) : FunctionTree α → Except ε (FunctionTree β)
  | .absent => .ok .absent
  | .node body nested => do
    let body ← f body
    let nested ← traverseAll f nested
    return .node body nested

/-- Applies a function that can fail to every function of several trees, in order. -/
def traverseAll {ε : Type} (f : α → Except ε β) :
    List (FunctionTree α) → Except ε (List (FunctionTree β))
  | [] => .ok []
  | t :: ts => do
    let t ← traverse f t
    let ts ← traverseAll f ts
    return t :: ts

end

end FunctionTree

/-- A complete chunk. -/
structure Chunk where
  header : Header
  main : FunctionTree Prototype

/-- The path of the main function in listings and documents. -/
def mainPath : Bytes := utf8 "main"

end LuaAssembly
