import LuaAssembly.Bytes.Numeral
import LuaAssembly.Storage.FileTask
import LuaAssembly.Toml.Setting

/-!
# Project manifests

A project is described by a file in its directory: the directory for what is built, the units to
build, and where to log.  Paths in it are relative to the project, and outputs are relative to the
build directory.
-/
namespace LuaAssembly

/-- A unit of a project as the manifest gives it. -/
structure UnitEntry where
  source : Bytes
  output : Bytes
  deriving DecidableEq

/-- A unit of a project with full paths. -/
structure BuildUnit where
  source : Bytes
  output : Bytes
  deriving DecidableEq

/-- A project manifest. -/
structure Manifest where
  name : Bytes
  outDir : Bytes
  entries : List UnitEntry
  verbosity : Int
  /-- The log file; empty for none. -/
  logFile : Bytes
  dir : Bytes
  deriving DecidableEq

namespace Manifest

/-- The name of manifest files. -/
def fileName : Bytes := utf8 "luasm.toml"

/-- The name of lock files. -/
def lockName : Bytes := utf8 "luasm.lock"

/-- The manifest of an empty file. -/
def empty : Manifest :=
  { name := [], outDir := [], entries := [], verbosity := 0, logFile := [], dir := [] }

/-! ## Paths -/

/-- The full path of the build directory. -/
def outPath (m : Manifest) : Bytes :=
  Path.resolve m.dir m.outDir

/-- The full path of the lock file. -/
def lockPath (m : Manifest) : Bytes :=
  Path.join m.outPath lockName

/-- The full path of the log file; empty for none. -/
def logPath (m : Manifest) : Bytes :=
  if m.logFile = [] then [] else Path.resolve m.dir m.logFile

/-- The units with full paths. -/
def units (m : Manifest) : List BuildUnit :=
  m.entries.map fun e => ⟨Path.resolve m.dir e.source, Path.resolve m.outPath e.output⟩

/-! ## Reading -/

/-- The keys of a unit. -/
def unitSettings : List (Toml.Setting UnitEntry) :=
  [ .string "source" fun s e => { e with source := s },
    .string "output" fun s e => { e with output := s } ]

/-- The keys of a manifest. -/
def settings : List (Toml.Setting Manifest) :=
  [ .table "project" [.string "name" fun s m => { m with name := s }] id fun m _ => m,
    .table "build" [.string "out-dir" fun s m => { m with outDir := s }] id fun m _ => m,
    .tables "unit" unitSettings ⟨[], []⟩ fun es m => { m with entries := es },
    .table "log"
      [ .integer "verbosity" fun v m => { m with verbosity := v },
        .string "file" fun s m => { m with logFile := s } ]
      id fun m _ => m ]

/-- The extension of what is built. -/
def outputExtension : Bytes := utf8 ".luac"

/-- A unit whose output is named after its source when the manifest does not name it. -/
def withOutput (e : UnitEntry) : UnitEntry :=
  if e.output = [] then
    { e with output := Path.withoutExtension (Path.base e.source) ++ outputExtension }
  else e

/-- The number of the first unit without a source, counted from one. -/
def firstWithoutSource? (entries : List UnitEntry) : Option Nat :=
  (entries.findIdx? fun e => e.source = []).map (· + 1)

/-- Two units that write the same file: the first unit whose output an earlier one has, and that
earlier one. -/
def firstCollision? : List BuildUnit → List BuildUnit → Option (BuildUnit × BuildUnit)
  | _, [] => none
  | earlier, u :: rest =>
    match earlier.find? fun e => e.output = u.output with
    | some e => some (e, u)
    | none => firstCollision? (earlier ++ [u]) rest

end Manifest

/-- Why a manifest cannot be used. -/
inductive ManifestProblem where
  | unreadable (path : Bytes) (problem : FileProblem)
  | malformed (path : Bytes)
  | noSource (path : Bytes) (number : Nat)
  /-- Two units write the same file. -/
  | collision (path first second output : Bytes)
  deriving DecidableEq

/-- The text of a problem. -/
def ManifestProblem.message : ManifestProblem → Bytes
  | .unreadable path problem => utf8 "cannot read " ++ path ++ utf8 ": " ++ problem.message
  | .malformed path => utf8 "parse error in " ++ path
  | .noSource path number =>
    path ++ utf8 ": unit " ++ Numeral.ofNat number ++ utf8 " has no source"
  | .collision path first second output =>
    path ++ utf8 ": units " ++ first ++ utf8 " and " ++ second ++ utf8 " both write " ++ output

namespace Manifest

/-- The manifest that a file stands for in the project directory `dir`, with defaults filled in.
The path is for messages. -/
def ofFile (path dir contents : Bytes) : Except ManifestProblem Manifest :=
  match Toml.Setting.load? settings empty contents with
  | none => .error (.malformed path)
  | some m =>
    match firstWithoutSource? m.entries with
    | some number => .error (.noSource path number)
    | none =>
      let m : Manifest :=
        { m with
          outDir := if m.outDir = [] then utf8 "build" else m.outDir
          entries := m.entries.map withOutput
          dir := dir }
      match firstCollision? [] m.units with
      | some (first, second) =>
        .error (.collision path first.source second.source second.output)
      | none => .ok m

/-- Reads the manifest of a directory. -/
def load (dir : Bytes) : FileTask (Except ManifestProblem Manifest) := do
  let path := Path.join dir fileName
  match ← FileTask.readFile path with
  | .error problem => return .error (.unreadable path problem)
  | .ok contents => return ofFile path (← FileTask.absolute dir) contents

/-- Reads the manifest of the first of several directories that has one. -/
def loadFirst : List Bytes → FileTask (Except ManifestProblem (Option Manifest))
  | [] => .done (.ok none)
  | dir :: rest => do
    if ← FileTask.pathExists (Path.join dir fileName) then
      return (← load dir).map some
    else loadFirst rest

/-- Reads the manifest of a directory or of the nearest directory above it that has one. -/
def find (start : Bytes) : FileTask (Except ManifestProblem (Option Manifest)) := do
  loadFirst (Path.ancestors (← FileTask.absolute start))

end Manifest

end LuaAssembly
