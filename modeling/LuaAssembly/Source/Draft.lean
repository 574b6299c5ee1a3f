import LuaAssembly.Source.Statement

/-!
# Drafts

A draft is the chunk that the statements read so far describe.  Its scalars may be missing, and
its functions stand in the order of their declarations, each with the number of the function that
it is nested in.  A function is declared after the one it is nested in, so the tree of functions
is put together from the last declaration to the first.
-/
namespace LuaAssembly

/-! ## Functions -/

/-- A function whose scalars may be missing. -/
structure FunctionDraft where
  /-- The path from the main function. -/
  name : Bytes
  /-- The number of the function it is nested in; the main function has none. -/
  parent : Option Nat
  source : Option Bytes
  lineDefined : Option Int
  lastLineDefined : Option Int
  numParams : Option UInt8
  isVararg : Option UInt8
  maxStackSize : Option UInt8
  code : List Word
  constants : List Constant
  lines : List Int
  locals : List LocalVar
  upvalues : List Upvalue
  deriving DecidableEq

namespace FunctionDraft

/-- A function of which nothing is known but its name and place. -/
def declared (name : Bytes) (parent : Option Nat) : FunctionDraft :=
  { name, parent, source := none, lineDefined := none, lastLineDefined := none, numParams := none,
    isVararg := none, maxStackSize := none, code := [], constants := [], lines := [],
    locals := [], upvalues := [] }

/-- The last segment of the path. -/
def lastSegment (f : FunctionDraft) : Bytes :=
  f.name.afterLast 0x2F

/-- The most upvalues a function can have. -/
def upvalueLimit : Nat := 255

/-- The error of a directive for which the function has no room any more. -/
def objection? (f : FunctionDraft) (d : Directive) : Option Cause :=
  let once (isSet : Bool) : Option Cause := if isSet then some (.duplicate d) else none
  match d with
  | .source => once f.source.isSome
  | .lineDefined => once f.lineDefined.isSome
  | .lastLineDefined => once f.lastLineDefined.isSome
  | .numParams => once f.numParams.isSome
  | .isVararg => once f.isVararg.isSome
  | .maxStackSize => once f.maxStackSize.isSome
  | .upvalue => if f.upvalues.length = upvalueLimit then some (.tooManyUpvalues f.name) else none
  | _ => none

/-- The function after a statement about it. -/
def apply (f : FunctionDraft) : Statement → FunctionDraft
  | .source s => { f with source := some s }
  | .lineDefined n => { f with lineDefined := some n }
  | .lastLineDefined n => { f with lastLineDefined := some n }
  | .numParams n => { f with numParams := some n }
  | .isVararg n => { f with isVararg := some n }
  | .maxStackSize n => { f with maxStackSize := some n }
  | .constant k => { f with constants := f.constants ++ [k] }
  | .line n => { f with lines := f.lines ++ [n] }
  | .localVar v => { f with locals := f.locals ++ [v] }
  | .upvalue u => { f with upvalues := f.upvalues ++ [u] }
  | .instruction w => { f with code := f.code ++ [w] }
  | _ => f

/-- The prototype, once no scalar is missing. -/
def finish (f : FunctionDraft) : Except Cause Prototype := do
  let need {α : Type} (d : Directive) (value : Option α) : Except Cause α :=
    match value with
    | some v => .ok v
    | none => .error (.missingIn d f.name)
  let source ← need .source f.source
  let lineDefined ← need .lineDefined f.lineDefined
  let lastLineDefined ← need .lastLineDefined f.lastLineDefined
  let numParams ← need .numParams f.numParams
  let isVararg ← need .isVararg f.isVararg
  let maxStackSize ← need .maxStackSize f.maxStackSize
  return { source, lineDefined, lastLineDefined, numParams, isVararg, maxStackSize,
           code := f.code, constants := f.constants, lines := f.lines, locals := f.locals,
           upvalues := f.upvalues }

end FunctionDraft

/-! ## Headers -/

/-- A header whose fields may be missing. -/
structure HeaderDraft where
  format : Option UInt8
  endianness : Option ByteOrder
  intSize : Option UInt8
  sizeTSize : Option UInt8
  instructionSize : Option UInt8
  /-- Whether numbers are integers, and their size. -/
  numberFormat : Option (Bool × UInt8)
  deriving DecidableEq

namespace HeaderDraft

/-- A header of which nothing is known. -/
def empty : HeaderDraft :=
  ⟨none, none, none, none, none, none⟩

/-- The error of a directive that sets a field a second time. -/
def objection? (h : HeaderDraft) (d : Directive) : Option Cause :=
  let once (isSet : Bool) : Option Cause := if isSet then some (.duplicate d) else none
  match d with
  | .format => once h.format.isSome
  | .endianness => once h.endianness.isSome
  | .intSize => once h.intSize.isSome
  | .sizeTSize => once h.sizeTSize.isSome
  | .instructionSize => once h.instructionSize.isSome
  | .numberFormat => once h.numberFormat.isSome
  | _ => none

/-- The header after a statement about it. -/
def apply (h : HeaderDraft) : Statement → HeaderDraft
  | .format n => { h with format := some n }
  | .endianness order => { h with endianness := some order }
  | .intSize n => { h with intSize := some n }
  | .sizeTSize n => { h with sizeTSize := some n }
  | .instructionSize n => { h with instructionSize := some n }
  | .numberFormat integral size => { h with numberFormat := some (integral, size) }
  | _ => h

/-- The header, once no field is missing.  It need not be a usable one. -/
def finish (h : HeaderDraft) : Except Cause Header := do
  let need {α : Type} (d : Directive) (value : Option α) : Except Cause α :=
    match value with
    | some v => .ok v
    | none => .error (.missing d)
  let format ← need .format h.format
  let order ← need .endianness h.endianness
  let intSize ← need .intSize h.intSize
  let sizeTSize ← need .sizeTSize h.sizeTSize
  let instructionSize ← need .instructionSize h.instructionSize
  let (integral, numberSize) ← need .numberFormat h.numberFormat
  return { format, endianness := order.tag, intSize, sizeTSize, instructionSize, numberSize,
           integral }

end HeaderDraft

/-! ## Drafts of chunks -/

/-- A chunk that is being described.  The current function is the one declared last. -/
structure Draft where
  header : HeaderDraft
  /-- The functions before the current one, in the order of their declarations. -/
  earlier : List FunctionDraft
  /-- The current function; there is none before the first declaration. -/
  current : Option FunctionDraft
  deriving DecidableEq

namespace Draft

/-- The draft before the first statement. -/
def empty : Draft :=
  ⟨.empty, [], none⟩

/-- All functions, in the order of their declarations. -/
def functions (d : Draft) : List FunctionDraft :=
  d.earlier ++ d.current.toList

/-- The first function nested in function `parent` whose path ends in `segment`. -/
def child? (functions : List FunctionDraft) (parent : Nat) (segment : Bytes) : Option Nat :=
  functions.findIdx? fun f => f.parent = some parent && f.lastSegment = segment

/-- The function that a path leads to from function `parent`, or the segment at which it ends. -/
def follow (functions : List FunctionDraft) (parent : Nat) : List Bytes → Except Bytes Nat
  | [] => .ok parent
  | segment :: rest =>
    match child? functions parent segment with
    | some next => follow functions next rest
    | none => .error segment

/-- The number of the function that a function called `name` is nested in.  The first function is
the main function and is nested in none; the name of any other is a path that starts at it. -/
def parentOf (functions : List FunctionDraft) (name : Bytes) : Except Cause (Option Nat) :=
  match functions with
  | [] => if 0x2F ∈ name then .error .mainIsPath else .ok none
  | main :: _ =>
    match name.split 0x2F with
    | root :: segment :: rest =>
      let segments := segment :: rest
      if root ≠ main.name then .error (.outsideMain name)
      else if [] ∈ segments then .error (.emptySegment name)
      else
        match follow functions 0 segments.dropLast with
        | .ok parent => .ok (some parent)
        | .error missing => .error (.noOuterFunction missing name)
    | _ => .error (.outsideMain name)

/-- The draft with a new function, which becomes the current one. -/
def declare (d : Draft) (name : Bytes) : Except Cause Draft :=
  (parentOf d.functions name).map fun parent =>
    { d with earlier := d.functions, current := some (.declared name parent) }

/-- The error of a statement that must not stand at this place, found at its head. -/
def objection? (d : Draft) : Head → Option Cause
  | .directive dir =>
    match dir.kind with
    | .header => d.header.objection? dir
    | .newFunction => none
    | .function =>
      match d.current with
      | none => some .misplacedDirective
      | some f => f.objection? dir
  | .mnemonic _ =>
    match d.current with
    | none => some .misplacedCode
    | some f => if f.maxStackSize.isSome then none else some .stackSizeExpected

/-- The draft after a statement. -/
def apply (d : Draft) : Statement → Except SourceError Draft
  | .function name pos =>
    match d.declare name with
    | .ok d => .ok d
    | .error cause => .error ⟨pos, cause⟩
  | s => .ok { d with header := d.header.apply s, current := d.current.map (·.apply s) }

/-! ## The finished chunk -/

/-- Functions with their numbers, the first number being `i`. -/
def number (i : Nat) : List FunctionDraft → List (Nat × FunctionDraft)
  | [] => []
  | f :: fs => (i, f) :: number (i + 1) fs

/-- A tree that waits for the function that it is nested in. -/
structure Hanging where
  /-- The number of the function it is nested in. -/
  parent : Option Nat
  tree : FunctionTree FunctionDraft

/-- Puts a function in front of the trees of all functions declared after it: those that are
nested in it become part of its own tree. -/
def gather (f : Nat × FunctionDraft) (later : List Hanging) : List Hanging :=
  let (nested, rest) := later.partition fun t => t.parent = some f.1
  ⟨f.2.parent, .node f.2 (nested.map (·.tree))⟩ :: rest

/-- The tree of all functions. -/
def tree (d : Draft) : FunctionTree FunctionDraft :=
  match (number 0 d.functions).foldr gather [] with
  | [] => .absent
  | t :: _ => t.tree

/-- The chunk that the draft describes.  Of several things that are missing the first is
reported: fields of the header first, then the main function and each function before the
functions nested in it. -/
def finish (d : Draft) : Except Cause Chunk := do
  let header ← d.header.finish
  if d.functions.isEmpty then throw .noFunction
  if let .error problem := header.validate then throw (.invalidHeader problem)
  return { header, main := ← d.tree.traverse FunctionDraft.finish }

end Draft

end LuaAssembly
