import LuaAssembly.Chunk.Decode
import LuaAssembly.Chunk.Listing
import LuaAssembly.Command.Request
import LuaAssembly.Document.Export
import LuaAssembly.Project.Build

/-!
# Running requests

A request is carried out as a task on files.  Its outcome is what the program prints and its exit
status: zero for success, one for an error, and two for a source with a constant that is neither a
string nor a number.
-/
namespace LuaAssembly.Command

/-- What the program prints and its exit status. -/
structure Outcome where
  exit : Nat
  out : Bytes
  err : Bytes
  deriving DecidableEq

namespace Outcome

/-- Success. -/
def success (out : Bytes) : Outcome :=
  ⟨0, out, []⟩

/-- An error, after some output. -/
def error (out message : Bytes) : Outcome :=
  ⟨1, out, programName ++ utf8 ": " ++ message ++ utf8 "\n"⟩

/-- A fault, which nothing catches: the program dies of it. -/
def fault (f : Fault) : Outcome :=
  ⟨2, [], f.message ++ utf8 "\n"⟩

end Outcome

/-! ## Logging -/

/-- The least verbosity at which anything is logged. -/
def leastVerbosity : Int := -3

/-- Makes sure that the log file exists if there is one. -/
def openLog (log : Logging) : FileTask (Except FileProblem Unit) :=
  if log.file = [] ∨ log.verbosity < leastVerbosity then .done (.ok ())
  else FileTask.touchFile log.file

/-- The outcome when the log file cannot be opened. -/
def logUnusable (problem : FileProblem) : Outcome :=
  ⟨1, [], utf8 "log file error: " ++ problem.message ++ utf8 "\n"⟩

/-! ## Jobs -/

/-- A message about a file.  A message that starts with a position follows without a blank. -/
def aboutFile (path : Bytes) (pos : Position) (message : Bytes) : Bytes :=
  if pos.isValid then path ++ utf8 ":" ++ message else path ++ utf8 ": " ++ message

/-- A message about the source at a path; the input of the program is not named. -/
def aboutSource (path : Bytes) (pos : Position) (message : Bytes) : Bytes :=
  if path = standard then message else aboutFile path pos message

/-- The message for a source that cannot be read. -/
def sourceUnreadable (path : Bytes) (problem : FileProblem) : Bytes :=
  if problem.action = .opening then problem.message
  else aboutFile path .none problem.message

/-- What stands at a path, or the input of the program. -/
def readPath (path input : Bytes) : FileTask (Except FileProblem Bytes) :=
  if path = standard then .done (.ok input) else FileTask.readFile path

/-- The binary chunk of a source, or the outcome that tells why there is none. -/
def assembledOr (path source : Bytes) : Except Outcome Bytes :=
  match parse source with
  | .error (.fault f) => .error (.fault f)
  | .error (.error e) => .error (.error [] (aboutSource path e.pos e.message))
  | .ok chunk =>
    match chunk.encode with
    | .ok binary => .ok binary
    | .error problem => .error (.error [] (aboutSource path .none problem.message))

/-- Assembles a source.  Nothing is written when that fails. -/
def runAssemble (source output input : Bytes) : FileTask Outcome := do
  match ← readPath source input with
  | .error problem => return .error [] (sourceUnreadable source problem)
  | .ok contents =>
    match assembledOr source contents with
    | .error outcome => return outcome
    | .ok binary =>
      if output = standard then return .success binary
      else
        match ← FileTask.writeFile output binary with
        | .ok () => return .success []
        | .error problem => return .error [] problem.message

/-- A chunk as a listing or as a document. -/
def presented (c : Chunk) (cbor : Bool) : Outcome :=
  if cbor then
    match c.document with
    | .ok document => .success document
    | .error problem => .error [] problem.message
  else .success (c.listing?.getD [])

/-- Lists a chunk. -/
def runDump (path : Bytes) (cbor : Bool) (input : Bytes) : FileTask Outcome := do
  match ← readPath path input with
  | .error problem => return .error [] problem.message
  | .ok contents =>
    match Chunk.decode contents with
    | .error problem => return .error [] (aboutFile path .none problem.message)
    | .ok chunk => return presented chunk cbor

/-- The line for a unit that was built. -/
def resultLine (r : BuildResult) : Bytes :=
  if r.skipped then utf8 "  up to date  " ++ r.unit.output ++ utf8 "\n"
  else
    utf8 "  assembled   " ++ r.unit.output ++ utf8 " (" ++ Numeral.ofNat r.size ++
      utf8 " bytes)\n"

/-- What the program prints for a build.  Of a build that breaks off there is only the fault. -/
def reported : Except Fault BuildOutcome → Outcome
  | .error f => .fault f
  | .ok build =>
    let out := build.results.flatMap resultLine
    match build.failure with
    | none => .success out
    | some failure => .error out failure.message

/-- Builds the project of a directory.  The manifest says how to log unless the command line
does. -/
def runBuild (dir : Bytes) (force loggingGiven : Bool) : FileTask Outcome := do
  match ← Manifest.find dir with
  | .error problem => return .error [] problem.message
  | .ok none =>
    return .error []
      (utf8 "no " ++ Manifest.fileName ++ utf8 " found in " ++ dir ++ utf8 " or its parents")
  | .ok (some m) =>
    let log : Logging := if loggingGiven then ⟨0, []⟩ else ⟨m.verbosity, m.logPath⟩
    match ← openLog log with
    | .error problem => return logUnusable problem
    | .ok () => return reported (← m.build force)

/-- What can be done. -/
def helpText : Bytes :=
  utf8 <|
    "Assembles, lists and builds Lua 5.1 binary chunks.\n\n" ++
    "Usage:\n" ++
    "  luasm asm sourceFile [-o output]\n" ++
    "  luasm dump chunkFile [--cbor]\n" ++
    "  luasm build [dir] [--force]\n" ++
    "  luasm lsp\n\n" ++
    "A path - stands for the standard input or output.  With -v more is logged,\n" ++
    "with --log-file to a file.\n"

/-- Does a job.  The input is what the program can read.  An editor is served until the input
ends. -/
def Job.run (job : Job) (loggingGiven : Bool) (input : Bytes) : FileTask Outcome :=
  match job with
  | .help => .done (.success helpText)
  | .version => .done (.success (programName ++ utf8 " version " ++ programVersion ++ utf8 "\n"))
  | .assemble source output => runAssemble source output input
  | .dump chunk cbor => runDump chunk cbor input
  | .build dir force => runBuild dir force loggingGiven
  | .serve => .done (.success [])

/-- Carries out a request. -/
def Request.run (r : Request) (input : Bytes) : FileTask Outcome :=
  match r.logging with
  | none => r.job.run r.loggingGiven input
  | some log => do
    match ← openLog log with
    | .error problem => return logUnusable problem
    | .ok () => r.job.run r.loggingGiven input

/-- The input of the program is needed for a request. -/
def Request.readsInput (r : Request) : Bool :=
  match r.job with
  | .assemble source _ => source = standard
  | .dump chunk _ => chunk = standard
  | .serve => true
  | _ => false

/-- Carries out a command line. -/
def run (arguments : List Bytes) (input : Bytes) : FileTask Outcome :=
  match Request.ofArguments arguments with
  | .error problem => .done (.error [] problem.message)
  | .ok request => request.run input

end LuaAssembly.Command
