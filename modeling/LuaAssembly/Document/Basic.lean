import LuaAssembly.Bytecode.Instruction
import LuaAssembly.Bytes.Printable
import LuaAssembly.Chunk.Encode
import LuaAssembly.Digest

/-!
# Documents

A document is a chunk in a form made for other tools: every function knows its path, every
instruction is given both as its word and decoded into its fields, and the document carries the
digest of the binary chunk it was made from.  When a document is turned back into a chunk only the
words of the instructions count.
-/
namespace LuaAssembly

/-- The header of a document. -/
structure DocumentHeader where
  format : UInt8
  /-- The name of the byte order. -/
  endianness : Bytes
  intSize : UInt8
  sizeTSize : UInt8
  instructionSize : UInt8
  numberSize : UInt8
  integral : Bool
  deriving DecidableEq

/-- An instruction of a document. -/
structure DocumentInstruction where
  word : Word
  op : Bytes
  a : Int
  b : Int
  c : Int
  bx : Int
  /-- The instruction in source form. -/
  text : Bytes
  deriving DecidableEq

/-- A function of a document, apart from the functions nested in it. -/
structure DocumentFunction where
  path : Bytes
  source : Bytes
  lineDefined : Int
  lastLineDefined : Int
  numParams : UInt8
  isVararg : UInt8
  maxStackSize : UInt8
  code : List DocumentInstruction
  constants : List Constant
  lines : List Int
  locals : List LocalVar
  upvalues : List Upvalue
  deriving DecidableEq

/-- A document. -/
structure Document where
  /-- The digest of the binary chunk. -/
  digest : Bytes
  header : DocumentHeader
  main : FunctionTree DocumentFunction

/-! ## From chunks -/

namespace DocumentHeader

/-- The header of a document for a chunk with header `h`. -/
def ofHeader (h : Header) : DocumentHeader :=
  { format := h.format, endianness := ByteOrder.nameOfTag h.endianness, intSize := h.intSize,
    sizeTSize := h.sizeTSize, instructionSize := h.instructionSize, numberSize := h.numberSize,
    integral := h.integral }

end DocumentHeader

namespace DocumentInstruction

/-- An instruction word with its fields. -/
def ofWord (w : Word) : DocumentInstruction :=
  { word := w, op := Opcode.nameOfNumber w.opcodeNumber, a := w.slot .a, b := w.slot .b,
    c := w.slot .c, bx := w.slot .bx, text := w.text }

end DocumentInstruction

namespace DocumentFunction

/-- The function of a document for a prototype at a path. -/
def ofPrototype (path : Bytes) (p : Prototype) : DocumentFunction :=
  { path, source := p.source, lineDefined := p.lineDefined, lastLineDefined := p.lastLineDefined,
    numParams := p.numParams, isVararg := p.isVararg, maxStackSize := p.maxStackSize,
    code := p.code.map .ofWord, constants := p.constants, lines := p.lines, locals := p.locals,
    upvalues := p.upvalues }

/-- The prototype that a function of a document describes. -/
def toPrototype (f : DocumentFunction) : Prototype :=
  { source := f.source, lineDefined := f.lineDefined, lastLineDefined := f.lastLineDefined,
    numParams := f.numParams, isVararg := f.isVararg, maxStackSize := f.maxStackSize,
    code := f.code.map (·.word), constants := f.constants, lines := f.lines, locals := f.locals,
    upvalues := f.upvalues }

end DocumentFunction

/-- Why a chunk has no document: it has no binary form. -/
structure ExportProblem where
  problem : EncodeProblem

/-- The text of a problem. -/
def ExportProblem.message (p : ExportProblem) : Bytes :=
  utf8 "listing: " ++ p.problem.message

/-- Why a document cannot be turned into a chunk. -/
inductive RestoreProblem where
  | unknownEndianness (name : Bytes)
  | noMain
  /-- A place of the function tree has no function. -/
  | missingFunction
  deriving DecidableEq

/-- The text of a problem. -/
def RestoreProblem.message : RestoreProblem → Bytes
  | .unknownEndianness name => utf8 "listing: unknown endianness " ++ name.shown
  | .noMain => utf8 "listing: chunk has no main function"
  | .missingFunction => utf8 "listing: missing function"

namespace Document

/-- The document of a chunk. -/
def ofChunk (c : Chunk) : Except ExportProblem Document :=
  match c.encode with
  | .error p => .error ⟨p⟩
  | .ok binary =>
    match c.main.convert? DocumentFunction.ofPrototype mainPath with
    | some main => .ok { digest := Digest.sha256 binary, header := .ofHeader c.header, main }
    | none => .error ⟨.unwritable .missingFunction⟩

/-- The chunk that a document describes. -/
def toChunk (d : Document) : Except RestoreProblem Chunk :=
  match ByteOrder.ofName? d.header.endianness with
  | none => .error (.unknownEndianness d.header.endianness)
  | some order =>
    if d.main.isAbsent then .error .noMain
    else
      match d.main.convert? (fun _ f => f.toPrototype) mainPath with
      | none => .error .missingFunction
      | some main =>
        let h := d.header
        .ok
          { header :=
              { format := h.format, endianness := order.tag, intSize := h.intSize,
                sizeTSize := h.sizeTSize, instructionSize := h.instructionSize,
                numberSize := h.numberSize, integral := h.integral },
            main }

end Document

end LuaAssembly
