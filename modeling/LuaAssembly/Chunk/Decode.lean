import LuaAssembly.Bytes.Printable
import LuaAssembly.Chunk.Encode

/-!
# Reading chunks

The reader goes through the bytes once, from left to right.  It keeps the bytes still unread and
its position, and stops at the first thing that does not fit.  Nested functions are read at most
two hundred levels deep, and lists have at most `2 ^ 24` elements.
-/
namespace LuaAssembly

open scoped Power

/-- The parts of a chunk that messages speak of. -/
inductive Part where
  | source
  | sourceLength
  | lineDefined
  | lastLineDefined
  /-- The number of upvalues. -/
  | upvalueTotal
  | numParams
  | isVararg
  | maxStackSize
  | codeCount
  | instruction
  | constantCount
  | constantTag
  | numberConstant
  | stringConstant
  | stringConstantLength
  | functionCount
  | lineCount
  | line
  | localCount
  | localName
  | localNameLength
  | localFirst
  | localLast
  /-- The number of upvalue names. -/
  | upvalueCount
  | upvalueName
  | upvalueNameLength
  deriving DecidableEq

/-- The name of a part in messages. -/
def Part.name : Part → Bytes
  | .source => utf8 "source"
  | .sourceLength => utf8 "source length"
  | .lineDefined => utf8 "linedefined"
  | .lastLineDefined => utf8 "lastlinedefined"
  | .upvalueTotal => utf8 "nups"
  | .numParams => utf8 "numparams"
  | .isVararg => utf8 "is_vararg"
  | .maxStackSize => utf8 "maxstacksize"
  | .codeCount => utf8 "code count"
  | .instruction => utf8 "instruction"
  | .constantCount => utf8 "constant count"
  | .constantTag => utf8 "constant tag"
  | .numberConstant => utf8 "number constant"
  | .stringConstant => utf8 "string constant"
  | .stringConstantLength => utf8 "string constant length"
  | .functionCount => utf8 "function count"
  | .lineCount => utf8 "line info count"
  | .line => utf8 "line info"
  | .localCount => utf8 "local count"
  | .localName => utf8 "local name"
  | .localNameLength => utf8 "local name length"
  | .localFirst => utf8 "local startpc"
  | .localLast => utf8 "local endpc"
  | .upvalueCount => utf8 "upvalue count"
  | .upvalueName => utf8 "upvalue name"
  | .upvalueNameLength => utf8 "upvalue name length"

/-- Why bytes are no chunk. -/
inductive DecodeProblem where
  /-- There are fewer bytes than a header has. -/
  | tooShort (size : Nat)
  | signature (found : Bytes)
  | version (found : UInt8)
  | header (problem : HeaderProblem)
  | unexpectedEnd (part : Part) (pos : Nat)
  /-- A count is negative or too large. -/
  | count (part : Part) (value : Int) (pos : Nat)
  /-- A string is declared longer than the whole chunk. -/
  | length (part : Part) (value : Nat)
  /-- A string does not end in a zero byte. -/
  | unterminated (part : Part)
  | constantTag (tag : UInt8) (pos : Nat)
  | tooDeep (pos : Nat)
  /-- The number of upvalue names is neither zero nor the number of upvalues. -/
  | upvalueNames (names : Nat) (total : UInt8)
  | trailing (count : Nat)
  deriving DecidableEq

/-- The text of a problem. -/
def DecodeProblem.message : DecodeProblem → Bytes
  | .tooShort size =>
    utf8 "luac: chunk too short: need at least 12 bytes, got " ++ Numeral.ofNat size
  | .signature found => utf8 "luac: invalid signature " ++ found.shown
  | .version found => utf8 "luac: unsupported version 0x" ++ Numeral.hexUpper 2 found.toNat
  | .header p => utf8 "luac: " ++ p.message
  | .unexpectedEnd part pos =>
    utf8 "luac: unexpected end of chunk reading " ++ part.name ++ utf8 " at pos " ++
      Numeral.ofNat pos
  | .count part value pos =>
    utf8 "luac: invalid " ++ part.name ++ utf8 " " ++ Numeral.ofInt value ++ utf8 " at pos " ++
      Numeral.ofNat pos
  | .length part value =>
    utf8 "luac: " ++ part.name ++ utf8 " length " ++ Numeral.ofNat value ++
      utf8 " exceeds chunk size"
  | .unterminated part => utf8 "luac: " ++ part.name ++ utf8 " is not NUL-terminated"
  | .constantTag tag pos =>
    utf8 "luac: unsupported constant type " ++ Numeral.ofNat tag.toNat ++ utf8 " at pos " ++
      Numeral.ofNat pos
  | .tooDeep pos => utf8 "luac: functions nested too deeply at pos " ++ Numeral.ofNat pos
  | .upvalueNames names total =>
    utf8 "luac: " ++ Numeral.ofNat names ++ utf8 " upvalue names for " ++
      Numeral.ofNat total.toNat ++ utf8 " upvalues"
  | .trailing n => utf8 "luac: " ++ Numeral.ofNat n ++ utf8 " trailing bytes after main function"

/-- Where the reader stands. -/
structure Cursor where
  rest : Bytes
  /-- How many bytes have been read. -/
  pos : Nat

/-- A reader of a part: it gives a value and where it stopped, or the first problem. -/
abbrev Decoder (α : Type) := Cursor → Except DecodeProblem (α × Cursor)

namespace Decoder

variable {α β : Type}

/-- Reads nothing. -/
def value (a : α) : Decoder α :=
  fun c => .ok (a, c)

/-- Reads one part and then another that may depend on it. -/
def andThen (d : Decoder α) (f : α → Decoder β) : Decoder β :=
  fun c =>
    match d c with
    | .error p => .error p
    | .ok (a, c) => f a c

instance : Monad Decoder where
  pure := value
  bind := andThen

/-- Stops with a problem. -/
def fail (p : DecodeProblem) : Decoder α :=
  fun _ => .error p

/-- The position of the reader. -/
def position : Decoder Nat :=
  fun c => .ok (c.pos, c)

/-- Reads `n` bytes. -/
def take (part : Part) (n : Nat) : Decoder Bytes :=
  fun c =>
    match c.rest.splitAt? n with
    | some (front, back) => .ok (front, ⟨back, c.pos + n⟩)
    | none => .error (.unexpectedEnd part c.pos)

/-- Reads one byte. -/
def byte (part : Part) : Decoder UInt8 :=
  fun c =>
    match c.rest with
    | b :: back => .ok (b, ⟨back, c.pos + 1⟩)
    | [] => .error (.unexpectedEnd part c.pos)

/-- Reads `n` things of one kind after those in `acc`, which are kept newest first. -/
def repeatOnto (d : Decoder α) : Nat → List α → Decoder (List α)
  | 0, acc => fun c => .ok (acc.reverse, c)
  | n + 1, acc => fun c =>
    match d c with
    | .error p => .error p
    | .ok (a, c) => repeatOnto d n (a :: acc) c

/-- Reads `n` things of one kind. -/
def replicate (n : Nat) (d : Decoder α) : Decoder (List α) :=
  repeatOnto d n []

end Decoder

namespace Decode

open Decoder

/-- The largest number of elements of a list. -/
def maxCount : Int := 2 ^ (24 : Nat)

/-- How deep functions may be nested inside the main function. -/
def maxDepth : Nat := 200

/-- The number of bytes of a header. -/
def headerSize : Nat := 12

variable (h : Header) (total : Nat)

/-- Reads a value of `size` bytes. -/
def sized (size : UInt8) (part : Part) : Decoder Nat := do
  let bs ← take part size.toNat
  return Sized.read ((ByteOrder.ofTag? h.endianness).getD .little) bs

/-- Reads a signed integer. -/
def int (part : Part) : Decoder Int := do
  let x ← sized h h.intSize part
  return Sized.signExtend h.intSize.toNat x

/-- Reads the number of elements of a list. -/
def count (part : Part) : Decoder Nat := do
  let n ← int h part
  let pos ← position
  if n < 0 ∨ maxCount < n then fail (.count part n pos) else return n.toNat

/-- Takes the zero byte off the end of a string. -/
def dropTerminator (part : Part) : Bytes → Except DecodeProblem Bytes
  | [] => .error (.unterminated part)
  | [b] => if b = 0 then .ok [] else .error (.unterminated part)
  | b :: bs =>
    match dropTerminator part bs with
    | .ok rest => .ok (b :: rest)
    | .error p => .error p

/-- Reads a string of a chunk of `total` bytes.  Length zero stands for the empty string as
well. -/
def string (lengthPart part : Part) : Decoder Bytes := do
  let n ← sized h h.sizeTSize lengthPart
  if n = 0 then return []
  else if total < n then fail (.length part n)
  else
    let bs ← take part n
    match dropTerminator part bs with
    | .ok s => return s
    | .error p => fail p

/-- Reads a number. -/
def number (part : Part) : Decoder Number := do
  let x ← sized h h.numberSize part
  if h.integral then return .ofInt (Sized.signExtend h.numberSize.toNat x)
  else if h.numberSize = 4 then return .widen .single x
  else return ⟨BitVec.ofNat 64 x⟩

/-- Reads an instruction. -/
def instruction : Decoder Word := do
  let x ← sized h h.instructionSize .instruction
  return BitVec.ofNat 32 x

/-- Reads a constant. -/
def constant : Decoder Constant := do
  let pos ← position
  let tag ← byte .constantTag
  if tag = Constant.numberTag then return .ofNumber (← number h .numberConstant)
  else if tag = Constant.stringTag then
    return .ofString (← string h total .stringConstantLength .stringConstant)
  else fail (.constantTag tag pos)

/-- Reads a local variable. -/
def localVar : Decoder LocalVar := do
  let name ← string h total .localNameLength .localName
  let first ← int h .localFirst
  let last ← int h .localLast
  return ⟨name, first, last⟩

/-- Reads the upvalue names.  A stripped function has none, whatever its number of upvalues; its
upvalues are nameless then. -/
def upvalues (nups : UInt8) : Decoder (List Upvalue) := do
  let n ← count h .upvalueCount
  if n ≠ 0 ∧ n ≠ nups.toNat then fail (.upvalueNames n nups)
  else
    let names ← replicate n (string h total .upvalueNameLength .upvalueName)
    let nameless := List.replicate (nups.toNat - n) []
    return (names ++ nameless).map fun name => ⟨name, 0, false⟩

/-- Reads a function with at most `depth - 1` levels of functions nested in it. -/
def function : Nat → Decoder (FunctionTree Prototype)
  | 0 => do fail (.tooDeep (← position))
  | depth + 1 => do
    let source ← string h total .sourceLength .source
    let lineDefined ← int h .lineDefined
    let lastLineDefined ← int h .lastLineDefined
    let nups ← byte .upvalueTotal
    let numParams ← byte .numParams
    let isVararg ← byte .isVararg
    let maxStackSize ← byte .maxStackSize
    let code ← replicate (← count h .codeCount) (instruction h)
    let constants ← replicate (← count h .constantCount) (constant h total)
    let nested ← replicate (← count h .functionCount) (function depth)
    let lines ← replicate (← count h .lineCount) (int h .line)
    let locals ← replicate (← count h .localCount) (localVar h total)
    let upvalues ← upvalues h total nups
    return .node
      { source, lineDefined, lastLineDefined, numParams, isVararg, maxStackSize, code, constants,
        lines, locals, upvalues } nested

/-- Reads the header off the front of a chunk. -/
def header : Bytes → Except DecodeProblem (Header × Bytes)
  | s₀ :: s₁ :: s₂ :: s₃ :: version :: format :: endianness :: intSize :: sizeTSize ::
      instructionSize :: numberSize :: integral :: rest =>
    if [s₀, s₁, s₂, s₃] ≠ Encode.signature then .error (.signature [s₀, s₁, s₂, s₃])
    else if version ≠ Encode.version then .error (.version version)
    else
      let h : Header :=
        { format, endianness, intSize, sizeTSize, instructionSize, numberSize
          integral := integral ≠ 0 }
      match h.problem? with
      | some p => .error (.header p)
      | none => .ok (h, rest)
  | bs => .error (.tooShort bs.length)

end Decode

namespace Chunk

/-- The chunk that bytes stand for. -/
def decode (bs : Bytes) : Except DecodeProblem Chunk :=
  match Decode.header bs with
  | .error p => .error p
  | .ok (h, rest) =>
    match Decode.function h bs.length (Decode.maxDepth + 1) ⟨rest, Decode.headerSize⟩ with
    | .error p => .error p
    | .ok (main, c) =>
      if c.rest = [] then .ok ⟨h, main⟩ else .error (.trailing c.rest.length)

end Chunk

end LuaAssembly
