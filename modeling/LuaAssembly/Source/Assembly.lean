import LuaAssembly.Chunk.Writer
import LuaAssembly.Source.Draft

/-!
# Assembly

The assembler is a machine that is fed one token at a time.  Between statements its state is a
draft; inside a statement it is a reading that waits for the next token.  At the end of the source
the draft is finished into a chunk.
-/
namespace LuaAssembly

namespace Assembly

/-- The version that source has to name. -/
def versionNumber : Bytes := utf8 "5.1"

/-- The state before the first token: the version is read first. -/
def start : Reading Draft := do
  let _ ← .argument fun t =>
    if t.literal = Directive.versionToken then .ok () else .error (.versionExpected t.literal)
  let _ ← .argument fun t =>
    if t.literal = versionNumber then .ok () else .error .versionUnsupported
  return .empty

/-- The state after the first token of a statement. -/
def begin (d : Draft) (t : Token) : Reading Draft :=
  match Head.ofToken? t with
  | none => .error t.pos (.unexpectedToken t.literal)
  | some head =>
    match d.objection? head with
    | some cause => .error t.pos cause
    | none =>
      head.arguments.andThen fun s =>
        match d.apply s with
        | .ok d => .done d
        | .error e => .fail (.error e)

/-- The state after one more token.  A failure stays. -/
def feed : Reading Draft → Token → Reading Draft
  | .done d, t => begin d t
  | .fail failure, _ => .fail failure
  | .next resume, t => resume t

theorem foldl_feed_fail (f : Failure) (ts : List Token) : ts.foldl feed (.fail f) = .fail f := by
  induction ts with
  | nil => rfl
  | cons t ts ih => exact ih

/-- What the assembler has made of all tokens of a source that ends at `stop`. -/
def conclude (stop : Position) : Reading Draft → Except Failure Chunk
  | .done d =>
    match d.finish with
    | .ok chunk => .ok chunk
    | .error cause => .error (.error ⟨.none, cause⟩)
  | .fail failure => .error failure
  | .next _ => .error (.error ⟨stop, .unexpectedEnd⟩)

end Assembly

/-- The chunk that a source text describes. -/
def parse (source : Bytes) : Except Failure Chunk :=
  let lexed := lex source
  Assembly.conclude lexed.stop (lexed.tokens.foldl Assembly.feed Assembly.start)

/-- Why a source text was not assembled into a sink. -/
inductive AssemblyFailure where
  | source (failure : Failure)
  | delivery (problem : DeliveryProblem)

/-- Assembles a source text, writes the binary chunk to a sink of the given capacity, and gives
what the sink holds at the end. -/
def assemble (source : Bytes) (capacity : Option Nat) : Bytes × Except AssemblyFailure Unit :=
  match parse source with
  | .error failure => ([], .error (.source failure))
  | .ok chunk =>
    let (taken, result) := chunk.deliver capacity
    match result with
    | .ok () => (taken, .ok ())
    | .error problem => (taken, .error (.delivery problem))

end LuaAssembly
