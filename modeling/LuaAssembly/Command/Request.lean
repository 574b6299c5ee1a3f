import LuaAssembly.Command.Switch
import LuaAssembly.Storage.Path

/-!
# What a command line asks for

The first argument that is neither an option nor the value of one names a verb.  Each verb has
options and takes a number of words.  Options and words may stand in any order; after `--` there are
only words.
-/
namespace LuaAssembly.Command

/-- The name of the program. -/
def programName : Bytes := utf8 "luasm"

/-- The version of the program. -/
def programVersion : Bytes := utf8 "0.1.0"

/-- A verb. -/
inductive Verb where
  | asm
  | build
  | dump
  | help
  /-- Serves an editor. -/
  | lsp
  deriving DecidableEq

namespace Verb

/-- The name of a verb. -/
def name : Verb → Bytes
  | .asm => utf8 "asm"
  | .build => utf8 "build"
  | .dump => utf8 "dump"
  | .help => utf8 "help"
  | .lsp => utf8 "lsp"

/-- All verbs. -/
def all : List Verb := [.asm, .build, .dump, .help, .lsp]

/-- The verb with a name. -/
def ofName? (word : Bytes) : Option Verb :=
  all.find? fun v => v.name = word

/-- The options of a verb, or of the program when there is none. -/
def switches : Option Verb → List Switch
  | none => [.verbose, .logFile, .help, .version]
  | some .asm => [.verbose, .logFile, .help, .output]
  | some .build => [.verbose, .logFile, .help, .force]
  | some .dump => [.verbose, .logFile, .help, .cbor]
  | some .help | some .lsp => [.verbose, .logFile, .help]

end Verb

/-- What is wrong with a command line. -/
inductive UsageProblem where
  | unknownVerb (word : Bytes)
  /-- A verb takes no words. -/
  | unexpectedWord (word : Bytes) (verb : Verb)
  /-- An argument starts like an option and is none. -/
  | badSyntax (argument : Bytes)
  | unknownName (name : Bytes)
  | unknownLetter (letter : UInt8) (cluster : Bytes)
  | noValue (argument : Bytes)
  /-- There is no value for an option that is given by its letter. -/
  | noLetterValue (letter : UInt8) (cluster : Bytes)
  | badValue (option : Switch) (value : Bytes) (problem : ValueProblem)
  /-- A verb takes another number of words. -/
  | wordCount (expected given : Nat)
  /-- A verb takes fewer words. -/
  | tooManyWords (most given : Nat)
  deriving DecidableEq

/-- A letter between single quotes. -/
def quoteLetter (letter : UInt8) : Bytes :=
  let body :=
    if letter = 0x27 then utf8 "\\'"
    else if letter = 0x22 then [0x22]
    else Bytes.showScalar letter.toNat
  [0x27] ++ body ++ [0x27]

/-- The text of a problem. -/
def UsageProblem.message : UsageProblem → Bytes
  | .unknownVerb word =>
    utf8 "unknown command " ++ word.shown ++ utf8 " for " ++ programName.shown
  | .unexpectedWord word verb =>
    utf8 "unknown command " ++ word.shown ++ utf8 " for " ++
      Bytes.shown (programName ++ utf8 " " ++ verb.name)
  | .badSyntax argument => utf8 "bad flag syntax: " ++ argument
  | .unknownName name => utf8 "unknown flag: --" ++ name
  | .unknownLetter letter cluster =>
    utf8 "unknown shorthand flag: " ++ quoteLetter letter ++ utf8 " in -" ++ cluster
  | .noValue argument => utf8 "flag needs an argument: " ++ argument
  | .noLetterValue letter cluster =>
    utf8 "flag needs an argument: " ++ quoteLetter letter ++ utf8 " in -" ++ cluster
  | .badValue option value problem =>
    utf8 "invalid argument " ++ value.shown ++ utf8 " for " ++ option.label.shown ++
      utf8 " flag: " ++ problem.message value
  | .wordCount expected given =>
    utf8 "accepts " ++ Numeral.ofNat expected ++ utf8 " arg(s), received " ++ Numeral.ofNat given
  | .tooManyWords most given =>
    utf8 "accepts at most " ++ Numeral.ofNat most ++ utf8 " arg(s), received " ++
      Numeral.ofNat given

/-! ## Finding the verb -/

/-- The argument that ends the options. -/
def endOfOptions : Bytes := utf8 "--"

/-- Before the verb is known, an option is taken to have the next argument for its value unless it
holds an equals sign or has an implied value in every verb. -/
def takesNext (argument : Bytes) : Bool :=
  match argument with
  | 0x2D :: 0x2D :: name => 0x3D ∉ name && name ≠ Switch.verbose.name
  | [0x2D, letter] => letter ≠ 0x3D && some letter ≠ Switch.verbose.letter?
  | _ => false

/-- The argument starts with a dash. -/
def isDashed (argument : Bytes) : Bool :=
  argument.head? = some 0x2D

/-- The words among arguments whose verb is not known.  With `skip` the first argument is the value
of an option.  An option that would have the last argument for its value ends the search. -/
def leadingWords : Bool → List Bytes → List Bytes
  | _, [] => []
  | true, _ :: rest => leadingWords false rest
  | false, a :: rest =>
    if a = endOfOptions then []
    else if takesNext a then if rest.length ≤ 1 then [] else leadingWords true rest
    else if a = [] ∨ isDashed a then leadingWords false rest
    else a :: leadingWords false rest

/-- The arguments without the first occurrence of a word.  With `skip` the first argument is the
value of an option. -/
def withoutWord (word : Bytes) : Bool → List Bytes → List Bytes
  | _, [] => []
  | true, a :: rest => a :: withoutWord word false rest
  | false, a :: rest =>
    if a = endOfOptions then a :: rest
    else if takesNext a then a :: withoutWord word true rest
    else if a = word then rest
    else a :: withoutWord word false rest

/-- The verb of a command line and the other arguments. -/
def findVerb (arguments : List Bytes) : Except UsageProblem (Option Verb × List Bytes) :=
  match leadingWords false arguments with
  | [] => .ok (none, arguments)
  | word :: _ =>
    match Verb.ofName? word with
    | some verb => .ok (some verb, withoutWord word false arguments)
    | none => .error (.unknownVerb word)

/-! ## Options and words -/

/-- What has been read of the arguments of a verb. -/
structure Invocation where
  options : Options
  /-- The words, last first. -/
  words : List Bytes

/-- An option that waits for its value, and the problem if there is none. -/
structure Waiting where
  option : Switch
  problem : UsageProblem

/-- The options with a value for one of them. -/
def assignOption (o : Options) (s : Switch) (value : Bytes) : Except UsageProblem Options :=
  match o.set s value with
  | .ok o => .ok o
  | .error problem => .error (.badValue s value problem)

/-- Reads letters that stand together after a dash.  The rest of the argument is the value of the
first letter whose option has no implied value, and of a letter before an equals sign.  Letters from
`test.` on are passed over. -/
def readLetters (known : List Switch) (o : Options) :
    Bytes → Except UsageProblem (Options × Option Waiting)
  | [] => .ok (o, none)
  | letter :: rest =>
    if (utf8 "test.").isPrefixOf (letter :: rest) then .ok (o, none)
    else
      match known.find? fun s => s.letter? = some letter with
      | none => .error (.unknownLetter letter (letter :: rest))
      | some s =>
        match rest, s.implied? with
        | 0x3D :: v :: value, _ => (assignOption o s (v :: value)).map (·, none)
        | _, some value =>
          match assignOption o s value with
          | .ok o => readLetters known o rest
          | .error problem => .error problem
        | [], none => .ok (o, some ⟨s, .noLetterValue letter [letter]⟩)
        | _, none => (assignOption o s rest).map (·, none)

/-- Reads an option that is given by its name.  The text is what follows the two dashes. -/
def readName (known : List Switch) (o : Options) (text : Bytes) :
    Except UsageProblem (Options × Option Waiting) :=
  let argument := endOfOptions ++ text
  if text.head? = some 0x2D ∨ text.head? = some 0x3D then .error (.badSyntax argument)
  else
    let name := text.takeWhile (· ≠ 0x3D)
    match known.find? fun s => s.name = name with
    | none => .error (.unknownName name)
    | some s =>
      match text.dropWhile (· ≠ 0x3D), s.implied? with
      | _ :: value, _ => (assignOption o s value).map (·, none)
      | [], some value => (assignOption o s value).map (·, none)
      | [], none => .ok (o, some ⟨s, .noValue argument⟩)

/-- Reads the arguments of a verb. -/
def readArguments (known : List Switch) (i : Invocation) :
    Option Waiting → List Bytes → Except UsageProblem Invocation
  | none, [] => .ok i
  | some w, [] => .error w.problem
  | some w, value :: rest =>
    match assignOption i.options w.option value with
    | .ok o => readArguments known { i with options := o } none rest
    | .error problem => .error problem
  | none, a :: rest =>
    let read :=
      match a with
      | 0x2D :: 0x2D :: text => some (readName known i.options text)
      | 0x2D :: letter :: letters => some (readLetters known i.options (letter :: letters))
      | _ => none
    if a = endOfOptions then .ok { i with words := rest.reverse ++ i.words }
    else
      match read with
      | none => readArguments known { i with words := a :: i.words } none rest
      | some (.ok (o, waiting)) => readArguments known { i with options := o } waiting rest
      | some (.error problem) => .error problem

/-! ## Requests -/

/-- The path that stands for the input and the output of the program. -/
def standard : Bytes := utf8 "-"

/-- The file that a source is assembled to unless another is given. -/
def defaultOutput (source : Bytes) : Bytes :=
  if source = standard then standard else Path.withoutExtension source ++ utf8 ".luac"

/-- What the program is asked to do. -/
inductive Job where
  | help
  | version
  | assemble (source output : Bytes)
  /-- List a chunk, or write it as a document. -/
  | dump (chunk : Bytes) (cbor : Bool)
  | build (dir : Bytes) (force : Bool)
  | serve
  deriving DecidableEq

/-- How a request wants the log. -/
structure Logging where
  verbosity : Int
  /-- The log file; empty for none. -/
  file : Bytes
  deriving DecidableEq

/-- What a command line asks for. -/
structure Request where
  job : Job
  /-- The log; nothing is logged for requests that only show something. -/
  logging : Option Logging
  /-- Something was said about the log. -/
  loggingGiven : Bool
  deriving DecidableEq

/-- The job of a verb with options and words. -/
def jobOf (verb : Verb) (o : Options) (words : List Bytes) : Except UsageProblem Job :=
  match verb, words with
  | .asm, [source] =>
    .ok (.assemble source (if o.output = [] then defaultOutput source else o.output))
  | .dump, [chunk] => .ok (.dump chunk o.cbor)
  | .asm, _ | .dump, _ => .error (.wordCount 1 words.length)
  | .build, [] => .ok (.build Path.here o.force)
  | .build, [dir] => .ok (.build dir o.force)
  | .build, _ => .error (.tooManyWords 1 words.length)
  | .lsp, [] => .ok .serve
  | .lsp, word :: _ => .error (.unexpectedWord word .lsp)
  | .help, _ => .ok .help

/-- What a command line asks for. -/
def Request.ofArguments (arguments : List Bytes) : Except UsageProblem Request := do
  let (verb?, rest) ← findVerb arguments
  let i ← readArguments (Verb.switches verb?) ⟨.default, []⟩ none rest
  let o := i.options
  if o.help then return ⟨.help, none, false⟩
  if o.version then return ⟨.version, none, false⟩
  match verb? with
  | none => return ⟨.help, none, false⟩
  | some verb =>
    let job ← jobOf verb o i.words.reverse
    return ⟨job, some ⟨o.verbosity, o.logFile⟩, .verbose ∈ o.given || .logFile ∈ o.given⟩

end LuaAssembly.Command
