import LuaAssembly.Bytecode.CodeListing
import LuaAssembly.Chunk.Basic

/-!
# Chunk listings

A chunk printed as assembler source: the header directives, then every function with its
directives and its code.  Nested functions have no names in a chunk; they are named by their
places, `f0`, `f1` and so on, under the function around them.
-/
namespace LuaAssembly.Listing

/-- A directive with its arguments, on a line of its own. -/
def directive (name : String) (arguments : List Bytes) : Bytes :=
  Bytes.join (utf8 " ") (utf8 name :: arguments) ++ utf8 "\n"

/-- Lines set off by an empty line in front; nothing when there are none. -/
def block (lines : List Bytes) : Bytes :=
  if lines = [] then [] else utf8 "\n" ++ lines.flatten

/-- Whether numbers are stored as integers, in words. -/
def numberKind (integral : Bool) : Bytes :=
  if integral then utf8 "integer" else utf8 "float"

/-- A truth value in words. -/
def truth (b : Bool) : Bytes :=
  if b then utf8 "true" else utf8 "false"

/-- A byte in decimal. -/
def byteText (b : UInt8) : Bytes :=
  Numeral.ofNat b.toNat

/-- The header directives. -/
def header (h : Header) : Bytes :=
  directive ".version" [utf8 "5.1"] ++
  directive ".format" [byteText h.format] ++
  directive ".endianness" [ByteOrder.nameOfTag h.endianness] ++
  directive ".int_size" [byteText h.intSize] ++
  directive ".size_t_size" [byteText h.sizeTSize] ++
  directive ".instruction_size" [byteText h.instructionSize] ++
  directive ".number_format" [numberKind h.integral, byteText h.numberSize]

/-- An upvalue. -/
def upvalue (u : Upvalue) : Bytes :=
  directive ".upvalue" [Literal.quote u.name, Numeral.ofInt u.index, truth u.inStack]

/-- The constants from index `i` on. -/
def constantsFrom : Nat → List Constant → List Bytes
  | _, [] => []
  | i, k :: ks =>
    directive ".constant" [utf8 "k" ++ Numeral.ofNat i, k.describe] :: constantsFrom (i + 1) ks

/-- The line entries from position `pc` on, each with its position in a comment. -/
def linesFrom : Nat → List Int → List Bytes
  | _, [] => []
  | pc, line :: rest =>
    (utf8 ".line " ++ (Numeral.ofInt line).padRight 8 ++ utf8 " ; [" ++ Numeral.ofNat pc ++
      utf8 "]\n") :: linesFrom (pc + 1) rest

/-- A local variable. -/
def localVar (v : LocalVar) : Bytes :=
  directive ".local" [Literal.quote v.name, Numeral.ofInt v.first, Numeral.ofInt v.last]

/-- Describes the constants of a pool. -/
def namer (constants : List Constant) : CodeListing.Namer :=
  fun k =>
    match constants[k.toNat]? with
    | some constant => constant.describe
    | none => []

/-- The code, set off by an empty line. -/
def code (p : Prototype) : Bytes :=
  if p.code = [] then [] else utf8 "\n" ++ CodeListing.render (some (namer p.constants)) p.code

/-- A function without the functions nested in it. -/
def function (path : Bytes) (p : Prototype) : Bytes :=
  directive ".function" [path] ++
  directive ".source" [Literal.quote p.source] ++
  directive ".linedefined" [Numeral.ofInt p.lineDefined] ++
  directive ".lastlinedefined" [Numeral.ofInt p.lastLineDefined] ++
  directive ".numparams" [byteText p.numParams] ++
  directive ".is_vararg" [byteText p.isVararg] ++
  directive ".maxstacksize" [byteText p.maxStackSize] ++
  block (p.upvalues.map upvalue) ++
  block (constantsFrom 0 p.constants) ++
  block (linesFrom 0 p.lines) ++
  block (p.locals.map localVar) ++
  code p

end LuaAssembly.Listing

namespace LuaAssembly.Chunk

/-- The listing of a chunk; nothing when a function in the tree is missing.  A chunk without a
main function has only the header directives. -/
def listing? (c : Chunk) : Option Bytes :=
  if c.main.isAbsent then some (Listing.header c.header)
  else
    (c.main.walk? mainPath).map fun functions =>
      Listing.header c.header ++
        functions.flatMap fun (path, p) => utf8 "\n" ++ Listing.function path p

end LuaAssembly.Chunk
