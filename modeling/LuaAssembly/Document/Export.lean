import LuaAssembly.Cbor.Item
import LuaAssembly.Document.Basic

/-!
# Writing documents

A document is written as a map from small integers to its parts.  Lists that are empty, numbers
that are zero and strings that are empty are left out where a missing entry means the same.  Local
variables and upvalues have words for keys; keys stand in the order of their encodings, shorter
ones first.
-/
namespace LuaAssembly

open Cbor

namespace Document

/-- The entry of a map for key `k`. -/
def entry (k : Nat) (value : Item) : List Item :=
  [.unsigned k, value]

/-- The entry of a map for a list, left out when the list is empty. -/
def listEntry (k : Nat) (items : List Item) : List Item :=
  if items.isEmpty then [] else entry k (.array items)

/-- The entry of a map for a word. -/
def namedEntry (name : String) (value : Item) : List Item :=
  [.ofText (utf8 name), value]

/-- A header as an item. -/
def headerItem (h : DocumentHeader) : Item :=
  .map <|
    entry 1 (.ofByte h.format) ++ entry 2 (.ofText h.endianness) ++ entry 3 (.ofByte h.intSize) ++
    entry 4 (.ofByte h.sizeTSize) ++ entry 5 (.ofByte h.instructionSize) ++
    entry 6 (.ofByte h.numberSize) ++ entry 7 (.ofBool h.integral)

/-- An instruction as an item. -/
def instructionItem (i : DocumentInstruction) : Item :=
  .map <|
    entry 1 (.unsigned i.word.toNat) ++ entry 2 (.ofText i.op) ++ entry 3 (.ofInt i.a) ++
    entry 4 (.ofInt i.b) ++ entry 5 (.ofInt i.c) ++ entry 6 (.ofInt i.bx) ++
    entry 7 (.ofText i.text)

/-- A constant as an item. -/
def constantItem (k : Constant) : Item :=
  .map <|
    entry 1 (.ofByte k.tag) ++ (if k.number.isZero then [] else entry 2 (.float k.number)) ++
    (if k.string.isEmpty then [] else entry 3 (.ofText k.string))

/-- A local variable as an item. -/
def localItem (v : LocalVar) : Item :=
  .map <|
    namedEntry "End" (.ofInt v.last) ++ namedEntry "Name" (.ofText v.name) ++
    namedEntry "Begin" (.ofInt v.first)

/-- An upvalue as an item. -/
def upvalueItem (u : Upvalue) : Item :=
  .map <|
    namedEntry "Name" (.ofText u.name) ++ namedEntry "Index" (.ofInt u.index) ++
    namedEntry "InStack" (.ofBool u.inStack)

/-- A function as an item, given the items of the functions nested in it. -/
def functionItem (f : DocumentFunction) (nested : List Item) : Item :=
  .map <|
    entry 1 (.ofText f.path) ++ entry 2 (.ofText f.source) ++ entry 3 (.ofInt f.lineDefined) ++
    entry 4 (.ofInt f.lastLineDefined) ++ entry 5 (.ofByte f.numParams) ++
    entry 6 (.ofByte f.isVararg) ++ entry 7 (.ofByte f.maxStackSize) ++
    listEntry 8 (f.code.map instructionItem) ++ listEntry 9 (f.constants.map constantItem) ++
    listEntry 10 nested ++ listEntry 11 (f.lines.map .ofInt) ++
    listEntry 12 (f.locals.map localItem) ++ listEntry 13 (f.upvalues.map upvalueItem)

mutual

/-- A tree of functions as an item. -/
def treeItem : FunctionTree DocumentFunction → Item
  | .absent => .null
  | .node f nested => functionItem f (treeItems nested)

/-- Trees of functions as items. -/
def treeItems : List (FunctionTree DocumentFunction) → List Item
  | [] => []
  | t :: ts => treeItem t :: treeItems ts

end

/-- A document as an item. -/
def toItem (d : Document) : Item :=
  .map (entry 1 (.bytes [d.digest]) ++ entry 2 (headerItem d.header) ++ entry 3 (treeItem d.main))

/-- The bytes of a document. -/
def encode (d : Document) : Bytes :=
  Cbor.encode d.toItem

end Document

namespace Chunk

/-- The bytes of the document of a chunk. -/
def document (c : Chunk) : Except ExportProblem Bytes :=
  (Document.ofChunk c).map Document.encode

end Chunk

end LuaAssembly
