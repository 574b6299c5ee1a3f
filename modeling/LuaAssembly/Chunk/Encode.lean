import LuaAssembly.Chunk.Basic
import LuaAssembly.Chunk.Sized

/-!
# Writing chunks

The binary form of a chunk is its header followed by the main function; a function is followed by
its nested functions in the middle of its own data.  Writing may stop half-way, at a value that
has no binary form; what was written up to there still counts, so an emission is the bytes written
and the reason for stopping, if any.
-/
namespace LuaAssembly

/-- A value without a binary form. -/
inductive Unwritable where
  /-- The header declares no byte order, so multi-byte values cannot be written. -/
  | endianness (tag : UInt8)
  | constantTag (tag : UInt8)
  /-- A place of the function tree has no function. -/
  | missingFunction
  deriving DecidableEq

namespace Unwritable

/-- The text that goes with the stop. -/
def message : Unwritable → Bytes
  | .endianness tag => utf8 "luac: unhandled endianness " ++ Numeral.ofNat tag.toNat
  | .constantTag tag => utf8 "luac: unhandled constant type " ++ Constant.tagName tag
  | .missingFunction => utf8 "luac: missing function"

end Unwritable

/-- What has been written, and why writing stopped before the end, if it did. -/
structure Emission where
  bytes : Bytes
  /-- The value that could not be written. -/
  stop : Option Unwritable

namespace Emission

/-- Writing given bytes. -/
def ofBytes (bs : Bytes) : Emission := ⟨bs, none⟩

/-- Writing one byte. -/
def ofByte (b : UInt8) : Emission := ⟨[b], none⟩

/-- Stopping at once. -/
def halt (u : Unwritable) : Emission := ⟨[], some u⟩

/-- Writing one thing after another, up to the first stop. -/
def append (x y : Emission) : Emission :=
  match x.stop with
  | some _ => x
  | none => ⟨x.bytes ++ y.bytes, y.stop⟩

/-- Writing several things in order, up to the first stop. -/
def concat : List Emission → Emission
  | [] => ofBytes []
  | x :: xs => x.append (concat xs)

/-- Writing several things of one kind in order. -/
def each {α : Type} (f : α → Emission) (xs : List α) : Emission :=
  concat (xs.map f)

end Emission

namespace Encode

/-- The four bytes that every chunk starts with. -/
def signature : Bytes := [0x1B, 0x4C, 0x75, 0x61]

/-- The version byte of Lua 5.1. -/
def version : UInt8 := 0x51

/-- The twelve bytes of a header. -/
def header (h : Header) : Bytes :=
  signature ++
    [ version, h.format, h.endianness, h.intSize, h.sizeTSize, h.instructionSize, h.numberSize,
      if h.integral then 1 else 0 ]

variable (h : Header)

/-- A value of `size` bytes. -/
def sized (size : UInt8) (x : Nat) : Emission :=
  match ByteOrder.ofTag? h.endianness with
  | some order => .ofBytes (Sized.write order size.toNat x)
  | none => .halt (.endianness h.endianness)

/-- A signed integer. -/
def int (v : Int) : Emission :=
  sized h h.intSize (Sized.wrap64 v)

/-- The number of elements of a list. -/
def count {α : Type} (xs : List α) : Emission :=
  int h xs.length

/-- A string: its length with the final zero byte, its bytes, and the zero byte. -/
def string (s : Bytes) : Emission :=
  .concat [sized h h.sizeTSize (Sized.wrap64 (s.length + 1)), .ofBytes s, .ofByte 0]

/-- The value that is stored for a number: an integer, or the bits of a float of four or eight
bytes. -/
def numberCode (v : Number) : Nat :=
  if h.integral then Sized.wrap64 v.truncate
  else if h.numberSize = 4 then v.narrow .single
  else v.bits.toNat

/-- A number. -/
def number (v : Number) : Emission :=
  sized h h.numberSize (numberCode h v)

/-- A constant: its tag and what the tag selects. -/
def constant (k : Constant) : Emission :=
  Emission.append (.ofByte k.tag) <|
    if k.tag = Constant.numberTag then number h k.number
    else if k.tag = Constant.stringTag then string h k.string
    else .halt (.constantTag k.tag)

/-- A local variable. -/
def localVar (v : LocalVar) : Emission :=
  .concat [string h v.name, int h v.first, int h v.last]

/-- The part of a function before its nested functions. -/
def prologue (p : Prototype) : Emission :=
  .concat
    [ string h p.source, int h p.lineDefined, int h p.lastLineDefined,
      .ofBytes [UInt8.ofNat p.upvalues.length, p.numParams, p.isVararg, p.maxStackSize],
      count h p.code, .each (fun w => sized h h.instructionSize w.toNat) p.code,
      count h p.constants, .each (constant h) p.constants ]

/-- The part of a function after its nested functions. -/
def epilogue (p : Prototype) : Emission :=
  .concat
    [ count h p.lines, .each (int h) p.lines,
      count h p.locals, .each (localVar h) p.locals,
      count h p.upvalues, .each (fun u => string h u.name) p.upvalues ]

mutual

/-- A function and the functions nested in it. -/
def function : FunctionTree Prototype → Emission
  | .absent => .halt .missingFunction
  | .node p nested =>
    .concat [prologue h p, count h nested, functions nested, epilogue h p]

/-- Functions in order. -/
def functions : List (FunctionTree Prototype) → Emission
  | [] => .ofBytes []
  | f :: fs => (function f).append (functions fs)

end

end Encode

/-- Why a chunk has no binary form. -/
inductive EncodeProblem where
  | noMain
  | header (problem : HeaderProblem)
  /-- Writing stopped at a value without a binary form. -/
  | unwritable (value : Unwritable)
  deriving DecidableEq

/-- The text of a problem. -/
def EncodeProblem.message : EncodeProblem → Bytes
  | .noMain => utf8 "luac: chunk has no main function"
  | .header p => utf8 "luac: " ++ p.message
  | .unwritable u => u.message

namespace Chunk

/-- Why a chunk is refused before anything is written. -/
def refusal? (c : Chunk) : Option EncodeProblem :=
  if c.main.isAbsent then some .noMain
  else c.header.problem?.map .header

/-- The binary form of a chunk. -/
def encode (c : Chunk) : Except EncodeProblem Bytes :=
  match c.refusal? with
  | some p => .error p
  | none =>
    let out := Emission.append (.ofBytes (Encode.header c.header)) (Encode.function c.header c.main)
    match out.stop with
    | some u => .error (.unwritable u)
    | none => .ok out.bytes

end Chunk

end LuaAssembly
