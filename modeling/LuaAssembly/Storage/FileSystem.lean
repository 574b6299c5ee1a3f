import LuaAssembly.Storage.Path

/-!
# File systems

A file system is a finite map from locations to files and directories, together with a working
directory.  A location is the list of segments that leads to it from the root.  Operations take
paths as they are written and follow them segment by segment, so they fail as the operations of an
operating system do.
-/
namespace LuaAssembly

/-- What stands at a place. -/
inductive FileEntry where
  | file (contents : Bytes)
  | directory
  deriving DecidableEq

/-- Why a file operation fails. -/
inductive FileError where
  | notFound
  /-- A file is where a directory is needed. -/
  | notDirectory
  /-- A directory is where a file is needed. -/
  | isDirectory
  | denied
  deriving DecidableEq

/-- The text of an error. -/
def FileError.message : FileError → Bytes
  | .notFound => utf8 "no such file or directory"
  | .notDirectory => utf8 "not a directory"
  | .isDirectory => utf8 "is a directory"
  | .denied => utf8 "permission denied"

/-- What was being done to a file. -/
inductive FileAction where
  | opening
  | reading
  | makingDirectory
  deriving DecidableEq

/-- The name of an action. -/
def FileAction.name : FileAction → Bytes
  | .opening => utf8 "open"
  | .reading => utf8 "read"
  | .makingDirectory => utf8 "mkdir"

/-- A failed file operation. -/
structure FileProblem where
  action : FileAction
  path : Bytes
  error : FileError
  deriving DecidableEq

/-- The text of a failed operation. -/
def FileProblem.message (p : FileProblem) : Bytes :=
  p.action.name ++ utf8 " " ++ p.path ++ utf8 ": " ++ p.error.message

/-- A location: the segments from the root to it. -/
abbrev Location := List Bytes

/-- The files and directories, and the working directory. -/
structure FileSystem where
  /-- What stands at each place; the root is always a directory. -/
  entries : List (Location × FileEntry)
  working : Location

namespace FileSystem

/-- What stands at a place. -/
def entryAt? (fs : FileSystem) (place : Location) : Option FileEntry :=
  if place = [] then some .directory else fs.entries.lookup place

/-- The file system with a new entry at a place. -/
def put (fs : FileSystem) (place : Location) (entry : FileEntry) : FileSystem :=
  { fs with entries := (place, entry) :: fs.entries.filter fun e => e.1 ≠ place }

/-- The file system without a place and all that is below it. -/
def removeTree (fs : FileSystem) (place : Location) : FileSystem :=
  { fs with entries := fs.entries.filter fun e => ! place.isPrefixOf e.1 }

/-- The path of the working directory. -/
def workingPath (fs : FileSystem) : Bytes :=
  Path.separator :: Bytes.join [Path.separator] fs.working

/-- Where a path starts. -/
def origin (fs : FileSystem) (path : Bytes) : Location :=
  if Path.isAbsolute path then [] else fs.working

/-- Follows segments from a place.  Every place that is left has to be a directory. -/
def walk (fs : FileSystem) (place : Location) : List Bytes → Except FileError Location
  | [] => .ok place
  | segment :: rest =>
    match fs.entryAt? place with
    | none => .error .notFound
    | some (.file _) => .error .notDirectory
    | some .directory =>
      if segment = [] ∨ segment = Path.here then walk fs place rest
      else if segment = Path.up then walk fs place.dropLast rest
      else walk fs (place ++ [segment]) rest

/-- What a path leads to. -/
def find (fs : FileSystem) (path : Bytes) : Except FileError (Location × FileEntry) :=
  if path = [] then .error .notFound
  else
    match fs.walk (fs.origin path) (path.split Path.separator) with
    | .error e => .error e
    | .ok place =>
      match fs.entryAt? place with
      | some entry => .ok (place, entry)
      | none => .error .notFound

/-- Something stands where a path leads. -/
def exists? (fs : FileSystem) (path : Bytes) : Bool :=
  match fs.find path with
  | .ok _ => true
  | .error _ => false

/-- The contents of a file. -/
def read (fs : FileSystem) (path : Bytes) : Except FileProblem Bytes :=
  match fs.find path with
  | .error e => .error ⟨.opening, path, e⟩
  | .ok (_, .directory) => .error ⟨.reading, path, .isDirectory⟩
  | .ok (_, .file contents) => .ok contents

/-- The place where a file can be written: its directory exists, and no directory stands there. -/
def target (fs : FileSystem) (path : Bytes) : Except FileError Location :=
  let segments := path.split Path.separator
  match segments.getLast? with
  | none => .error .notFound
  | some last =>
    if path = [] then .error .notFound
    else
      match fs.walk (fs.origin path) (segments.dropLast ++ [[]]) with
      | .error e => .error e
      | .ok place =>
        if last = [] ∨ last = Path.here ∨ last = Path.up then .error .isDirectory
        else
          match fs.entryAt? (place ++ [last]) with
          | some .directory => .error .isDirectory
          | _ => .ok (place ++ [last])

/-- Writes a file, in place of what it held before. -/
def write (fs : FileSystem) (path contents : Bytes) : Except FileProblem FileSystem :=
  match fs.target path with
  | .ok place => .ok (fs.put place (.file contents))
  | .error e => .error ⟨.opening, path, e⟩

/-- Makes sure that a file exists; its contents stay. -/
def touch (fs : FileSystem) (path : Bytes) : Except FileProblem FileSystem :=
  match fs.target path with
  | .ok place =>
    match fs.entryAt? place with
    | none => .ok (fs.put place (.file []))
    | some _ => .ok fs
  | .error e => .error ⟨.opening, path, e⟩

/-- Creates the missing directories on the way along segments, from the directory at `place`, which
is written `text`. -/
def makeAlong (fs : FileSystem) (place : Location) (text : Bytes) :
    List Bytes → Except FileProblem FileSystem
  | [] => .ok fs
  | segment :: rest =>
    if segment = [] then makeAlong fs place (text ++ [Path.separator]) rest
    else
      let path :=
        if text = [] ∨ text.getLast? = some Path.separator then text ++ segment
        else text ++ [Path.separator] ++ segment
      if segment = Path.here then makeAlong fs place path rest
      else if segment = Path.up then makeAlong fs place.dropLast path rest
      else
        match fs.entryAt? (place ++ [segment]) with
        | some .directory => makeAlong fs (place ++ [segment]) path rest
        | some (.file _) => .error ⟨.makingDirectory, path, .notDirectory⟩
        | none =>
          makeAlong (fs.put (place ++ [segment]) .directory) (place ++ [segment]) path rest

/-- Creates a directory and the missing directories above it.  The path has to be normal. -/
def makeDirectories (fs : FileSystem) (path : Bytes) : Except FileProblem FileSystem :=
  fs.makeAlong (fs.origin path) [] (path.split Path.separator)

end FileSystem

end LuaAssembly
