import LuaAssembly.Storage.FileSystem

/-!
# Tasks on files

A task is a program that works on files: it is either finished, or it is one file operation and
what to do with the result.  A task can be run on a file system value, which is how it is reasoned
about, and on the files of a machine.
-/
namespace LuaAssembly

/-- A program that works on files and ends with an `α`. -/
inductive FileTask (α : Type) where
  | done (result : α)
  | read (path : Bytes) (next : Except FileProblem Bytes → FileTask α)
  | write (path contents : Bytes) (next : Except FileProblem Unit → FileTask α)
  /-- Makes sure that a file exists. -/
  | touch (path : Bytes) (next : Except FileProblem Unit → FileTask α)
  /-- Creates a directory and the directories above it. -/
  | makeDirectories (path : Bytes) (next : Except FileProblem Unit → FileTask α)
  | exists? (path : Bytes) (next : Bool → FileTask α)
  | workingPath (next : Bytes → FileTask α)

namespace FileTask

variable {α β : Type}

/-- One task after another. -/
def andThen : FileTask α → (α → FileTask β) → FileTask β
  | .done a, f => f a
  | .read path next, f => .read path fun r => (next r).andThen f
  | .write path contents next, f => .write path contents fun r => (next r).andThen f
  | .touch path next, f => .touch path fun r => (next r).andThen f
  | .makeDirectories path next, f => .makeDirectories path fun r => (next r).andThen f
  | .exists? path next, f => .exists? path fun r => (next r).andThen f
  | .workingPath next, f => .workingPath fun r => (next r).andThen f

instance : Monad FileTask where
  pure := .done
  bind := andThen

/-- The file system after an operation, and its result. -/
def settle (fs : FileSystem) : Except FileProblem FileSystem → Except FileProblem Unit × FileSystem
  | .ok after => (.ok (), after)
  | .error p => (.error p, fs)

/-- Runs a task on a file system. -/
def run : FileTask α → FileSystem → α × FileSystem
  | .done a, fs => (a, fs)
  | .read path next, fs => (next (fs.read path)).run fs
  | .write path contents next, fs =>
    let (result, fs) := settle fs (fs.write path contents)
    (next result).run fs
  | .touch path next, fs =>
    let (result, fs) := settle fs (fs.touch path)
    (next result).run fs
  | .makeDirectories path next, fs =>
    let (result, fs) := settle fs (fs.makeDirectories path)
    (next result).run fs
  | .exists? path next, fs => (next (fs.exists? path)).run fs
  | .workingPath next, fs => (next fs.workingPath).run fs

/-- Running one task after another is running the first and then the second. -/
theorem run_andThen (t : FileTask α) (f : α → FileTask β) (fs : FileSystem) :
    (t.andThen f).run fs = (f (t.run fs).1).run (t.run fs).2 := by
  induction t generalizing fs with
  | done a => rfl
  | read path next ih => exact ih _ _
  | write path contents next ih => exact ih _ _
  | touch path next ih => exact ih _ _
  | makeDirectories path next ih => exact ih _ _
  | «exists?» path next ih => exact ih _ _
  | workingPath next ih => exact ih _ _

/-! ## Single operations -/

/-- Reads a file. -/
def readFile (path : Bytes) : FileTask (Except FileProblem Bytes) :=
  .read path .done

/-- Writes a file. -/
def writeFile (path contents : Bytes) : FileTask (Except FileProblem Unit) :=
  .write path contents .done

/-- Makes sure that a file exists. -/
def touchFile (path : Bytes) : FileTask (Except FileProblem Unit) :=
  .touch path .done

/-- Creates a directory and the directories above it. -/
def makePath (path : Bytes) : FileTask (Except FileProblem Unit) :=
  .makeDirectories path .done

/-- Something stands at a path. -/
def pathExists (path : Bytes) : FileTask Bool :=
  .exists? path .done

/-- The path itself if it starts at the root, and otherwise inside the working directory. -/
def absolute (path : Bytes) : FileTask Bytes :=
  if Path.isAbsolute path then .done (Path.clean path)
  else .workingPath fun working => .done (Path.join working path)

end FileTask

end LuaAssembly
