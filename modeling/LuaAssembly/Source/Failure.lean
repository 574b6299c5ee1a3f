import LuaAssembly.Bytecode.Opcode
import LuaAssembly.Chunk.Header
import LuaAssembly.Source.Directive
import LuaAssembly.Source.Literal
import LuaAssembly.Source.Token

/-!
# Failures of assembly

Assembly stops at the first thing that is wrong.  There are two kinds of failure: an error in the
source, and a fault, which is raised for a constant whose value is neither a string nor a number.
-/
namespace LuaAssembly

/-- What is wrong with a source text. -/
inductive Cause where
  /-- The text ends inside a statement. -/
  | unexpectedEnd
  | versionExpected (found : Bytes)
  | versionUnsupported
  /-- A function directive stands before the first function. -/
  | misplacedDirective
  /-- An instruction stands before the first function. -/
  | misplacedCode
  | unexpectedToken (found : Bytes)
  | literal (found : Bytes) (problem : Literal.Malformed)
  | expectedNumber (found : Bytes)
  | expectedBoolean (found : Bytes)
  | expectedRegister (found : Bytes)
  | expectedConstant (found : Bytes)
  | expectedRegisterOrConstant (found : Bytes)
  | duplicate (directive : Directive)
  /-- The argument does not fit one byte. -/
  | valueRange (directive : Directive) (value : Int)
  | unknownEndianness (found : Bytes)
  | unknownNumberFormat (found : Bytes)
  | tooManyUpvalues (function : Bytes)
  /-- An instruction stands before the number of registers. -/
  | stackSizeExpected
  | operandRange (slot : Slot) (op : Opcode) (value : Int)
  /-- The name of the first function is a path. -/
  | mainIsPath
  /-- The name of a later function does not start at the main function. -/
  | outsideMain (function : Bytes)
  | emptySegment (function : Bytes)
  /-- A function that the name goes through is not declared. -/
  | noOuterFunction (segment function : Bytes)
  /-- A header directive is missing. -/
  | missing (directive : Directive)
  | noFunction
  | invalidHeader (problem : HeaderProblem)
  /-- A directive is missing in a function. -/
  | missingIn (directive : Directive) (function : Bytes)
  deriving DecidableEq

/-- The text of a cause. -/
def Cause.message : Cause → Bytes
  | .unexpectedEnd => utf8 "Unexpected end of file"
  | .versionExpected found => utf8 "First directive must be .version, instead was " ++ found.shown
  | .versionUnsupported => utf8 "Only version 5.1 is supported for assembly"
  | .misplacedDirective =>
    utf8 "Misplaced function directive before declaration of any function"
  | .misplacedCode => utf8 "Misplaced code before declaration of any function"
  | .unexpectedToken found => utf8 "Unexpected token " ++ found.shown
  | .literal found problem => problem.message found
  | .expectedNumber found => utf8 "Expected number, got " ++ found.shown
  | .expectedBoolean found => utf8 "Expected boolean, got " ++ found.shown
  | .expectedRegister found => utf8 "Expected register, got " ++ found.shown
  | .expectedConstant found => utf8 "Expected constant, got " ++ found.shown
  | .expectedRegisterOrConstant found =>
    utf8 "Expected register or constant, got " ++ found.shown
  | .duplicate d => utf8 "Duplicate " ++ d.token ++ utf8 " directive"
  | .valueRange d v =>
    utf8 "Value " ++ Numeral.ofInt v ++ utf8 " out of range for " ++ d.token
  | .unknownEndianness found => utf8 "Unknown endianness " ++ found.shown
  | .unknownNumberFormat found => utf8 "Unknown number_format " ++ found.shown
  | .tooManyUpvalues f =>
    utf8 "Too many upvalues in function " ++ f.shown ++ utf8 " (limit 255)"
  | .stackSizeExpected => utf8 "Expected .maxstacksize before code"
  | .operandRange slot op v =>
    utf8 "Operand " ++ utf8 slot.name ++ utf8 " out of range in " ++ op.mnemonic.shown ++
      utf8 ": " ++ Numeral.ofInt v
  | .mainIsPath =>
    utf8 "First (main) function declaration must not have a \"/\" in the name"
  | .outsideMain f => utf8 "Function " ++ f.shown ++ utf8 " isn't contained in the main function"
  | .emptySegment f => utf8 "Empty path segment in function name " ++ f.shown
  | .noOuterFunction segment f =>
    utf8 "Can't find outer function " ++ segment.shown ++ utf8 " for " ++ f.shown
  | .missing d => utf8 "Missing " ++ d.token ++ utf8 " directive"
  | .noFunction => utf8 "Missing .function directive"
  | .invalidHeader p => utf8 "Invalid header: " ++ p.message
  | .missingIn d f => utf8 "Missing " ++ d.token ++ utf8 " directive in function " ++ f.shown

/-- An error in the source: a cause and the start of the token that was being read.  Errors that
are found only after all of the source was read have no position. -/
structure SourceError where
  pos : Position
  cause : Cause
  deriving DecidableEq

/-- The text of an error, with the position in front if there is one. -/
def SourceError.message (e : SourceError) : Bytes :=
  e.pos.locate e.cause.message

/-- A constant whose value is neither a string nor a number.  The assembler does not return a fault as
an error: it panics with it, and what called it panics too unless it catches the fault. -/
structure Fault where
  /-- Where the value stands. -/
  pos : Position
  value : Bytes
  deriving DecidableEq

/-- The text of a fault. -/
def Fault.message (f : Fault) : Bytes :=
  utf8 "luasm: internal error: constant value " ++ f.value.shown ++
    utf8 " is neither a string nor a number"

/-- Why a source text is not assembled. -/
inductive Failure where
  | error (e : SourceError)
  | fault (f : Fault)
  deriving DecidableEq

/-- Where a failure is. -/
def Failure.pos : Failure → Position
  | .error e => e.pos
  | .fault f => f.pos

end LuaAssembly
