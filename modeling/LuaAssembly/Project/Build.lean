import LuaAssembly.Digest
import LuaAssembly.Project.Lock
import LuaAssembly.Source.Assembly

/-!
# Building projects

A build assembles the units of a project in order and stops at the first that fails.  A unit is
skipped when the lock file says that its output was made from the same source and the output is
still there unchanged.  Only a build without failure writes the lock file.

A failure is returned, with the results of the units before it.  A fault of the assembler is a
panic that nothing catches: it breaks off the whole build, which then returns nothing, and what
remains of the build are the files written so far.
-/
namespace LuaAssembly

/-- What became of a unit. -/
structure BuildResult where
  unit : BuildUnit
  /-- Its output was current already. -/
  skipped : Bool
  /-- How many bytes were written. -/
  size : Nat
  deriving DecidableEq

/-- Why a build failed. -/
inductive BuildFailure where
  | lockUnusable (problem : LockProblem)
  /-- A file cannot be read or written. -/
  | file (problem : FileProblem)
  | source (path : Bytes) (error : SourceError)
  /-- The chunk of a source has no binary form. -/
  | chunk (path : Bytes) (problem : EncodeProblem)
  | lockUnwritable (problem : FileProblem)
  deriving DecidableEq

/-- The text of a failure. -/
def BuildFailure.message : BuildFailure → Bytes
  | .lockUnusable problem => utf8 "reading lock file: " ++ problem.message
  | .file problem => problem.message
  | .source path error => path ++ utf8 ": " ++ error.message
  | .chunk path problem => path ++ utf8 ": " ++ problem.message
  | .lockUnwritable problem => utf8 "writing lock file: " ++ problem.message

/-- What a build returns: the units that did not fail, in order, and the failure that ended it. -/
structure BuildOutcome where
  results : List BuildResult
  failure : Option BuildFailure
  deriving DecidableEq

namespace Build

/-- Why no further unit is built. -/
inductive Stop where
  | failure (problem : BuildFailure)
  /-- The assembler panics.  Nothing catches the fault, so the build panics with it and returns
  nothing. -/
  | fault (f : Fault)

/-- What a build returns, or panics with, that is stopped after some results. -/
def Stop.outcome (results : List BuildResult) : Stop → Except Fault BuildOutcome
  | .failure problem => .ok ⟨results, some problem⟩
  | .fault f => .error f

/-- The digest of a file, in hexadecimal digits. -/
def digest (contents : Bytes) : Bytes :=
  Digest.hexText (Digest.sha256 contents)

/-- The binary chunk of a source file. -/
def assembled (u : BuildUnit) (source : Bytes) : Except Stop Bytes :=
  match parse source with
  | .error (.error e) => .error (.failure (.source u.source e))
  | .error (.fault f) => .error (.fault f)
  | .ok chunk =>
    match chunk.encode with
    | .ok binary => .ok binary
    | .error p => .error (.failure (.chunk u.source p))

/-- A record tells that a unit was built from a source. -/
def isRecorded (u : BuildUnit) (source : Bytes) (record : LockedUnit) : Bool :=
  record.sourceDigest = digest source && record.output = u.output

/-- The record of a unit whose output is current: it was built from the same source and the output
is as it was written. -/
def currentRecord? (u : BuildUnit) (source : Bytes) (record : Option LockedUnit) :
    FileTask (Option LockedUnit) := do
  match record with
  | none => return none
  | some record =>
    if isRecorded u source record then
      match ← FileTask.readFile u.output with
      | .ok output => return if digest output = record.outputDigest then some record else none
      | .error _ => return none
    else return none

/-- Assembles a unit from its source and writes its output. -/
def rebuild (u : BuildUnit) (source : Bytes) :
    FileTask (Except Stop (BuildResult × LockedUnit)) := do
  match assembled u source with
  | .error stop => return .error stop
  | .ok binary =>
    match ← FileTask.makePath (Path.directory u.output) with
    | .error problem => return .error (.failure (.file problem))
    | .ok () =>
      match ← FileTask.writeFile u.output binary with
      | .error problem => return .error (.failure (.file problem))
      | .ok () =>
        return .ok (⟨u, false, binary.length⟩, ⟨u.source, digest source, u.output, digest binary⟩)

/-- Builds a unit, given the record of the last build. -/
def buildUnit (force : Bool) (u : BuildUnit) (record : Option LockedUnit) :
    FileTask (Except Stop (BuildResult × LockedUnit)) := do
  match ← FileTask.readFile u.source with
  | .error problem => return .error (.failure (.file problem))
  | .ok source =>
    match ← currentRecord? u source (if force then none else record) with
    | some record => return .ok (⟨u, true, 0⟩, record)
    | none => rebuild u source

/-- The units built so far with their records, and what stopped the build, if anything did. -/
structure Progress where
  results : List BuildResult
  records : List LockedUnit
  stop : Option Stop

/-- Builds units in order up to the first that cannot be built. -/
def buildUnits (force : Bool) (lock : Option Lock) : List BuildUnit → FileTask Progress
  | [] => .done ⟨[], [], none⟩
  | u :: rest => do
    match ← buildUnit force u (lock.bind (·.find? u.source)) with
    | .error stop => return ⟨[], [], some stop⟩
    | .ok (result, record) =>
      let later ← buildUnits force lock rest
      return ⟨result :: later.results, record :: later.records, later.stop⟩

end Build

/-- Builds a project.  With `force` every unit is assembled.  The build returns an outcome, unless
the assembler panics: then the build panics with the same fault. -/
def Manifest.build (m : Manifest) (force : Bool) : FileTask (Except Fault BuildOutcome) := do
  match ← Lock.read m.lockPath with
  | .error problem => return .ok ⟨[], some (.lockUnusable problem)⟩
  | .ok lock =>
    let progress ← Build.buildUnits force lock m.units
    match progress.stop with
    | some stop => return stop.outcome progress.results
    | none =>
      match ← Lock.write m.lockPath ⟨progress.records⟩ with
      | .error problem => return .ok ⟨progress.results, some (.lockUnwritable problem)⟩
      | .ok () => return .ok ⟨progress.results, none⟩

end LuaAssembly
