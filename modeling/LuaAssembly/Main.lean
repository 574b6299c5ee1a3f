import LuaAssembly.Command.Run

/-!
# The program

Tasks on files are carried out on the files of the machine, and the outcome of the command line is
printed.
-/
namespace LuaAssembly.Machine

/-- The path for a byte string, if it is valid UTF-8. -/
def pathText? (path : Bytes) : Option String :=
  String.fromUTF8? ⟨path.toArray⟩

/-- A directory stands at a path. -/
def isDirectory (path : String) : IO Bool := do
  let working ← IO.currentDir
  (working / path).isDir

/-- Something stands at a path. -/
def isPresent (path : String) : IO Bool := do
  let working ← IO.currentDir
  (working / path).pathExists

/-- The reason for an error of the machine. -/
def reason (directory : Bool) : IO.Error → FileError
  | .noFileOrDirectory .. => .notFound
  | .permissionDenied .. => .denied
  | _ => if directory then .isDirectory else .notDirectory

/-- Does something to a file and reports failures with what was being done. -/
def attempt {α : Type} (action : FileAction) (path : Bytes) (act : String → IO α) :
    IO (Except FileProblem α) := do
  match pathText? path with
  | none => return .error ⟨action, path, .notFound⟩
  | some text =>
    try return .ok (← act text)
    catch e => return .error ⟨action, path, reason (← isDirectory text) e⟩

/-- Reads a file. -/
def readFile (path : Bytes) : IO (Except FileProblem Bytes) := do
  if ← (pathText? path).elim (pure false) isDirectory then
    return .error ⟨.reading, path, .isDirectory⟩
  else
    attempt .opening path fun text => return (← IO.FS.readBinFile text).toList

/-- Writes a file. -/
def writeFile (path contents : Bytes) : IO (Except FileProblem Unit) :=
  attempt .opening path fun text => IO.FS.writeBinFile text ⟨contents.toArray⟩

/-- Makes sure that a file exists. -/
def touchFile (path : Bytes) : IO (Except FileProblem Unit) :=
  attempt .opening path fun text => do
    let _ ← IO.FS.Handle.mk text .append

/-- Creates directories in order, as far as they are missing. -/
def makeInOrder : List Bytes → IO (Except FileProblem Unit)
  | [] => return .ok ()
  | path :: rest => do
    let made ← attempt .makingDirectory path fun text => do
      unless ← isDirectory text do IO.FS.createDir text
    match made with
    | .ok () => makeInOrder rest
    | .error problem => return .error problem

/-- Carries out a task on the files of the machine. -/
def perform {α : Type} : FileTask α → IO α
  | .done result => return result
  | .read path next => do perform (next (← readFile path))
  | .write path contents next => do perform (next (← writeFile path contents))
  | .touch path next => do perform (next (← touchFile path))
  | .makeDirectories path next => do
    perform (next (← makeInOrder (Path.ancestors path).reverse))
  | .exists? path next => do
    perform (next (← (pathText? path).elim (pure false) isPresent))
  | .workingPath next => do perform (next (utf8 (← IO.currentDir).toString))

/-- Reads the input of the program if a command line needs it. -/
def readInput (arguments : List Bytes) : IO Bytes := do
  match Command.Request.ofArguments arguments with
  | .ok request =>
    if request.readsInput then return (← (← IO.getStdin).readBinToEnd).toList else return []
  | .error _ => return []

end LuaAssembly.Machine

/-- Carries out the command line of the program. -/
def main (arguments : List String) : IO UInt32 := do
  let words := arguments.map LuaAssembly.utf8
  let input ← LuaAssembly.Machine.readInput words
  let outcome ← LuaAssembly.Machine.perform (LuaAssembly.Command.run words input)
  (← IO.getStdout).write ⟨outcome.out.toArray⟩
  (← IO.getStderr).write ⟨outcome.err.toArray⟩
  return UInt32.ofNat outcome.exit
