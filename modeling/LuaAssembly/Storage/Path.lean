import LuaAssembly.Bytes

/-!
# Paths

Paths are byte strings whose segments are separated by slashes.  The operations work on the text
alone: `..` cancels the segment in front of it whether or not anything exists there.
-/
namespace LuaAssembly.Path

/-- The separator of segments. -/
def separator : UInt8 := 0x2F

/-- The segment that stands for the directory itself. -/
def here : Bytes := utf8 "."

/-- The segment that stands for the directory above. -/
def up : Bytes := utf8 ".."

/-- The path starts at the root. -/
def isAbsolute (path : Bytes) : Bool :=
  path.head? = some separator

/-- Adds a segment to the segments of a normal path, which are kept last first.  Above the root
there is nothing. -/
def push (rooted : Bool) (stack : List Bytes) (segment : Bytes) : List Bytes :=
  if segment = [] ∨ segment = here then stack
  else if segment = up then
    match stack with
    | [] => if rooted then [] else [up]
    | top :: rest => if top = up then up :: top :: rest else rest
  else segment :: stack

/-- The segments of a path after normalisation. -/
def segments (path : Bytes) : List Bytes :=
  ((path.split separator).foldl (push (isAbsolute path)) []).reverse

/-- The shortest path that leads to the same place. -/
def clean (path : Bytes) : Bytes :=
  let body := Bytes.join [separator] (segments path)
  if isAbsolute path then separator :: body else if body = [] then here else body

/-- One path inside another, normalised.  If both are empty the result is empty. -/
def join (base path : Bytes) : Bytes :=
  if base = [] then if path = [] then [] else clean path
  else clean (base ++ [separator] ++ path)

/-- The path itself if it starts at the root, and otherwise the path inside `base`. -/
def resolve (base path : Bytes) : Bytes :=
  if isAbsolute path then clean path else join base path

/-- The path without the slashes at its end. -/
def withoutTrailing (path : Bytes) : Bytes :=
  (path.reverse.dropWhile (· = separator)).reverse

/-- The last segment of a path. -/
def base (path : Bytes) : Bytes :=
  if path = [] then here
  else
    match withoutTrailing path with
    | [] => [separator]
    | trimmed => trimmed.afterLast separator

/-- The last segment from its last point on; empty when it has no point. -/
def extension (path : Bytes) : Bytes :=
  let last := path.afterLast separator
  if 0x2E ∈ last then 0x2E :: last.afterLast 0x2E else []

/-- The path without its extension. -/
def withoutExtension (path : Bytes) : Bytes :=
  path.take (path.length - (extension path).length)

/-- The directory that a path lies in. -/
def directory (path : Bytes) : Bytes :=
  clean (path.take (path.length - (path.afterLast separator).length))

/-- A directory and all directories above it, the nearest first.  The path has to be normal. -/
def ancestors (path : Bytes) : List Bytes :=
  let rec climb : Nat → Bytes → List Bytes
    | 0, p => [p]
    | n + 1, p => if directory p = p then [p] else p :: climb n (directory p)
  climb path.length path

end LuaAssembly.Path
