import LuaAssembly.Editor.Place
import LuaAssembly.Source.Assembly

/-!
# Diagnostics

The failure of a text to assemble, with the range of the token that is at fault.
-/
namespace LuaAssembly.Editor

/-- A failure to show in a text. -/
structure Diagnostic where
  range : Range
  message : Bytes
  deriving DecidableEq

namespace Diagnostic

/-- The name under which failures are shown. -/
def origin : Bytes := utf8 "luasm-lsp"

/-- How bad a failure is: every failure is an error. -/
def severity : Nat := 1

/-- The range of the token that starts at a position.  Without a position it is the empty range at
the start, and at the end of the text the empty range there. -/
def rangeAt (text : Bytes) (p : Position) : Range :=
  if p.isValid then
    match tokenize (text.drop p.offset.toNat) with
    | [] => .between p p
    | t :: _ => .between p (p.shift t.literal.length)
  else .zero

/-- A failure as a diagnostic. -/
def ofFailure (text : Bytes) : Failure → Diagnostic
  | .error e => ⟨rangeAt text e.pos, e.cause.message⟩
  | .fault f => ⟨rangeAt text f.pos, f.message⟩

end Diagnostic

/-- The failure of a text to assemble, if it fails. -/
def diagnose? (text : Bytes) : Option Diagnostic :=
  match parse text with
  | .ok _ => none
  | .error failure => some (.ofFailure text failure)

end LuaAssembly.Editor
