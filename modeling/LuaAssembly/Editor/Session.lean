import LuaAssembly.Editor.Diagnostic
import LuaAssembly.Editor.Navigation
import LuaAssembly.Editor.Vocabulary

/-!
# Editor sessions

A session holds the texts that are open in an editor and answers requests about them.  Whenever a
text is opened or replaced its diagnostics are published.
-/
namespace LuaAssembly.Editor

/-- What a session offers to an editor. -/
structure Capabilities where
  openClose : Bool
  /-- How changes are sent; one stands for whole texts. -/
  changeKind : Nat
  /-- The characters that ask for completion. -/
  triggers : List Bytes
  hover : Bool
  definition : Bool
  symbols : Bool

/-- What every session offers. -/
def capabilities : Capabilities :=
  { openClose := true, changeKind := 1, triggers := [utf8 "."], hover := true, definition := true,
    symbols := true }

/-- The name of the server. -/
def serverName : Bytes := Diagnostic.origin

/-- A change of a text. -/
inductive Change where
  | whole (text : Bytes)
  | part (text : Bytes)

/-- A request or a notification of the editor. -/
inductive Request where
  | hello
  /-- Something that needs no answer: the editor is ready, sets tracing or ends the session. -/
  | acknowledge
  | opened (uri text : Bytes)
  | closed (uri : Bytes)
  | changed (uri : Bytes) (changes : List Change)
  | complete (uri : Bytes) (place : Place)
  | hover (uri : Bytes) (place : Place)
  | definition (uri : Bytes) (place : Place)
  | symbols (uri : Bytes)

/-- The answer of a session. -/
inductive Reply where
  | welcome (offered : Capabilities) (version : Bytes)
  | nothing
  | published (uri : Bytes) (diagnostics : List Diagnostic)
  | suggestions (items : List Suggestion)
  | description (markdown : Bytes)
  | location (uri : Bytes) (range : Range)
  | outline (symbols : List Symbol)

/-- A session. -/
structure Session where
  version : Bytes
  /-- The open texts by their names. -/
  texts : List (Bytes × Bytes)

namespace Session

/-- A session without open texts. -/
def new (version : Bytes) : Session :=
  ⟨version, []⟩

/-- The open text of a name. -/
def text? (s : Session) (uri : Bytes) : Option Bytes :=
  s.texts.lookup uri

/-- Forgets a text. -/
def forget (s : Session) (uri : Bytes) : Session :=
  { s with texts := s.texts.filter fun entry => entry.1 ≠ uri }

/-- Keeps a text, in place of the one of the same name, and publishes its diagnostics. -/
def keep (s : Session) (uri text : Bytes) : Session × Reply :=
  ({ s with texts := (uri, text) :: (s.forget uri).texts },
    .published uri (diagnose? text).toList)

/-- An answer about an open text; there is none about others. -/
def about (s : Session) (uri : Bytes) (answer : Bytes → Reply) : Session × Reply :=
  match s.text? uri with
  | some text => (s, answer text)
  | none => (s, .nothing)

/-- The words to choose from at a place. -/
def suggestionsAt (place : Place) (text : Bytes) : Reply :=
  match wordBefore text place with
  | [] => .nothing
  | beginning =>
    match complete beginning with
    | [] => .nothing
    | items => .suggestions items

/-- The description of the word at a place. -/
def descriptionAt (place : Place) (text : Bytes) : Reply :=
  match hover? (wordAt text place) with
  | some markdown => .description markdown
  | none => .nothing

/-- The definition of the constant at a place. -/
def definitionAt (uri : Bytes) (place : Place) (text : Bytes) : Reply :=
  match constantIndex? (wordAt text place) with
  | none => .nothing
  | some k =>
    match constantDefinition? text (place.line + 1) k with
    | some t => .location uri (.ofToken t)
    | none => .nothing

/-- One request: the session after it and the answer.  Of several changes only the last counts, and
only when it replaces the whole text. -/
def step (s : Session) : Request → Session × Reply
  | .hello => (s, .welcome capabilities s.version)
  | .acknowledge => (s, .nothing)
  | .opened uri text => s.keep uri text
  | .closed uri => (s.forget uri, .published uri [])
  | .changed uri changes =>
    match changes.getLast? with
    | some (.whole text) => s.keep uri text
    | _ => (s, .nothing)
  | .complete uri place => s.about uri (suggestionsAt place)
  | .hover uri place => s.about uri (descriptionAt place)
  | .definition uri place => s.about uri (definitionAt uri place)
  | .symbols uri => s.about uri fun text => .outline (symbols text)

end Session

end LuaAssembly.Editor
