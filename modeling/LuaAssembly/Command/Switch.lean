import LuaAssembly.Bytes.Printable

/-!
# Options of the command line

An option has a name, written after two dashes, and may have a letter, written after one dash.
Options take a value; those that switch something on or count have a value that is implied when none
is written.
-/
namespace LuaAssembly.Command

open scoped Power

/-- An option. -/
inductive Switch where
  | verbose
  | logFile
  | output
  /-- Build everything. -/
  | force
  /-- Write a document instead of a listing. -/
  | cbor
  | help
  | version
  deriving DecidableEq

namespace Switch

/-- The name of an option. -/
def name : Switch → Bytes
  | .verbose => utf8 "verbose"
  | .logFile => utf8 "log-file"
  | .output => utf8 "output"
  | .force => utf8 "force"
  | .cbor => utf8 "cbor"
  | .help => utf8 "help"
  | .version => utf8 "version"

/-- The letter of an option. -/
def letter? : Switch → Option UInt8
  | .verbose => some 0x76
  | .output => some 0x6F
  | .force => some 0x66
  | .help => some 0x68
  | _ => none

/-- The value that an option takes when none is written. -/
def implied? : Switch → Option Bytes
  | .verbose => some (utf8 "+1")
  | .logFile | .output => none
  | .force | .cbor | .help | .version => some (utf8 "true")

/-- An option in messages. -/
def label (s : Switch) : Bytes :=
  match s.letter? with
  | some letter => [0x2D, letter] ++ utf8 ", --" ++ s.name
  | none => utf8 "--" ++ s.name

end Switch

/-! ## Values -/

/-- Why a text is not the value of an option. -/
inductive ValueProblem where
  /-- It is not one of the words for true and false. -/
  | notTruth
  | notInteger
  /-- It is an integer that needs more than sixty-four bits. -/
  | tooLarge
  deriving DecidableEq

/-- The text of a problem with a value. -/
def ValueProblem.message (value : Bytes) : ValueProblem → Bytes
  | .notTruth => utf8 "strconv.ParseBool: parsing " ++ value.shown ++ utf8 ": invalid syntax"
  | .notInteger => utf8 "strconv.ParseInt: parsing " ++ value.shown ++ utf8 ": invalid syntax"
  | .tooLarge => utf8 "strconv.ParseInt: parsing " ++ value.shown ++ utf8 ": value out of range"

/-- The words for true and false. -/
def truth? (value : Bytes) : Option Bool :=
  if (["1", "t", "T", "true", "TRUE", "True"].map utf8).contains value then some true
  else if (["0", "f", "F", "false", "FALSE", "False"].map utf8).contains value then some false
  else none

/-- The base of an integer and its digits: after `0b`, `0o` and `0x` the base is two, eight and
sixteen, after another leading zero it is eight, and otherwise ten. -/
def baseAndDigits : Bytes → Nat × Bytes
  | 0x30 :: mark :: d :: rest =>
    if Bytes.lowerAscii mark = 0x62 then (2, d :: rest)
    else if Bytes.lowerAscii mark = 0x6F then (8, d :: rest)
    else if Bytes.lowerAscii mark = 0x78 then (16, d :: rest)
    else (8, mark :: d :: rest)
  | 0x30 :: rest => (8, rest)
  | bs => (10, bs)

/-- Every underscore has a digit in front and behind.  A leading zero with the mark of a base
counts as a digit. -/
def underscoresSeparate (digitBefore : Bool) : Bytes → Bool
  | [] => true
  | b :: rest =>
    if b = 0x5F then
      digitBefore && (rest.head?.any fun c => c ≠ 0x5F) && underscoresSeparate false rest
    else underscoresSeparate true rest

/-- The value of digits with underscores between them.  It is too large as soon as the digits read
so far need more than sixty-four bits. -/
def digitsValue (base acc : Nat) : Bytes → Except ValueProblem Nat
  | [] => .ok acc
  | b :: rest =>
    if b = 0x5F then digitsValue base acc rest
    else
      match Bytes.hexValue? b with
      | none => .error .notInteger
      | some d =>
        if base ≤ d then .error .notInteger
        else if 2 ^ (64 : Nat) ≤ acc * base + d then .error .tooLarge
        else digitsValue base (acc * base + d) rest

/-- The value of an integer without its sign. -/
def magnitude (bs : Bytes) : Except ValueProblem Nat :=
  match bs with
  | [] => .error .notInteger
  | _ =>
    let (base, digits) := baseAndDigits bs
    match digitsValue base 0 digits with
    | .error problem => .error problem
    | .ok v =>
      if underscoresSeparate (base ≠ 10) digits then .ok v else .error .notInteger

/-- An integer in the signed range of sixty-four bits. -/
def inSignedRange (v : Int) : Except ValueProblem Int :=
  if -(2 ^ (63 : Nat)) ≤ v ∧ v < 2 ^ (63 : Nat) then .ok v else .error .tooLarge

/-- The value of an integer. -/
def integer : Bytes → Except ValueProblem Int
  | 0x2B :: rest => (magnitude rest).bind fun n => inSignedRange n
  | 0x2D :: rest => (magnitude rest).bind fun n => inSignedRange (-n)
  | bs => (magnitude bs).bind fun n => inSignedRange n

/-! ## The options of a command line together -/

/-- The values of all options. -/
structure Options where
  verbosity : Int
  /-- The log file; empty for none. -/
  logFile : Bytes
  /-- Where to write; empty for the usual place. -/
  output : Bytes
  force : Bool
  cbor : Bool
  help : Bool
  version : Bool
  /-- The options that were written. -/
  given : List Switch
  deriving DecidableEq

namespace Options

/-- The values when no option is written. -/
def default : Options :=
  { verbosity := 0, logFile := [], output := [], force := false, cbor := false, help := false,
    version := false, given := [] }

/-- A value for an option that counts: one more, or the count itself. -/
def count (current : Int) (value : Bytes) : Except ValueProblem Int :=
  if value = utf8 "+1" then .ok (current + 1) else integer value

/-- A value for an option that switches something on. -/
def truth (value : Bytes) : Except ValueProblem Bool :=
  match truth? value with
  | some b => .ok b
  | none => .error .notTruth

/-- The options with a value for one of them. -/
def assign (o : Options) (value : Bytes) : Switch → Except ValueProblem Options
  | .verbose => (count o.verbosity value).map fun v => { o with verbosity := v }
  | .logFile => .ok { o with logFile := value }
  | .output => .ok { o with output := value }
  | .force => (truth value).map fun b => { o with force := b }
  | .cbor => (truth value).map fun b => { o with cbor := b }
  | .help => (truth value).map fun b => { o with help := b }
  | .version => (truth value).map fun b => { o with version := b }

/-- The options with a value for one of them, which is then given. -/
def set (o : Options) (s : Switch) (value : Bytes) : Except ValueProblem Options :=
  (o.assign value s).map fun o => { o with given := s :: o.given }

end Options

end LuaAssembly.Command
