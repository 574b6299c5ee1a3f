import LuaAssembly.Project.Manifest

/-!
# Lock files

A lock file records what the last build of a project read and wrote, so that units that have not
changed need not be built again.
-/
namespace LuaAssembly

/-- The record of one unit.  Digests are in hexadecimal digits. -/
structure LockedUnit where
  source : Bytes
  sourceDigest : Bytes
  output : Bytes
  outputDigest : Bytes
  deriving DecidableEq

/-- The contents of a lock file. -/
structure Lock where
  /-- The records, in the order of the units. -/
  units : List LockedUnit
  deriving DecidableEq

namespace Lock

/-- The record of the unit with a given source. -/
def find? (lock : Lock) (source : Bytes) : Option LockedUnit :=
  lock.units.find? fun u => u.source = source

/-! ## Reading -/

/-- The keys of a record. -/
def unitSettings : List (Toml.Setting LockedUnit) :=
  [ .string "source" fun s u => { u with source := s },
    .string "source-digest" fun s u => { u with sourceDigest := s },
    .string "output" fun s u => { u with output := s },
    .string "output-digest" fun s u => { u with outputDigest := s } ]

/-- The keys of a lock file. -/
def settings : List (Toml.Setting Lock) :=
  [.tables "unit" unitSettings ⟨[], [], [], []⟩ fun us lock => { lock with units := us }]

/-- The lock that a file stands for. -/
def ofFile? (contents : Bytes) : Option Lock :=
  Toml.Setting.load? settings ⟨[]⟩ contents

/-! ## Writing -/

/-- A byte of a string in double quotes. -/
def quoteByte (b : UInt8) : Bytes :=
  if b = 0x22 then utf8 "\\\""
  else if b = 0x5C then utf8 "\\\\"
  else if b = 0x08 then utf8 "\\b"
  else if b = 0x09 then utf8 "\\t"
  else if b = 0x0A then utf8 "\\n"
  else if b = 0x0C then utf8 "\\f"
  else if b = 0x0D then utf8 "\\r"
  else if b < 0x20 ∨ b = 0x7F then utf8 "\\u" ++ Numeral.hex 4 b.toNat
  else [b]

/-- A key and a string, on a line of its own. -/
def line (key : String) (value : Bytes) : Bytes :=
  utf8 "  " ++ utf8 key ++ utf8 " = \"" ++ value.flatMap quoteByte ++ utf8 "\"\n"

/-- A record. -/
def block (u : LockedUnit) : Bytes :=
  utf8 "[[unit]]\n" ++ line "source" u.source ++ line "source-digest" u.sourceDigest ++
    line "output" u.output ++ line "output-digest" u.outputDigest

/-- The file for a lock: its records with empty lines between them. -/
def toFile (lock : Lock) : Bytes :=
  Bytes.join (utf8 "\n") (lock.units.map block)

end Lock

/-- Why a lock file cannot be used. -/
inductive LockProblem where
  | unreadable (problem : FileProblem)
  | malformed (path : Bytes)
  deriving DecidableEq

/-- The text of a problem. -/
def LockProblem.message : LockProblem → Bytes
  | .unreadable problem => problem.message
  | .malformed path => utf8 "parse error in " ++ path

namespace Lock

/-- Reads a lock file.  There need not be one. -/
def read (path : Bytes) : FileTask (Except LockProblem (Option Lock)) := do
  match ← FileTask.readFile path with
  | .error problem =>
    return if problem.error = .notFound then .ok none else .error (.unreadable problem)
  | .ok contents =>
    match ofFile? contents with
    | some lock => return .ok (some lock)
    | none => return .error (.malformed path)

/-- Writes a lock file, and creates its directory if it is missing. -/
def write (path : Bytes) (lock : Lock) : FileTask (Except FileProblem Unit) := do
  match ← FileTask.makePath (Path.directory path) with
  | .error problem => return .error problem
  | .ok () => FileTask.writeFile path lock.toFile

end Lock

end LuaAssembly
