import LuaAssembly.Toml.Syntax

/-!
# The meaning of configuration files

The lines of a file describe one table.  While they are followed, the tables that exist only
because something inside them was mentioned are remembered: such a table may still be opened once.
So are the keys whose value was last written as an array: if such a key was only mentioned, what it
holds is replaced.
-/
namespace LuaAssembly.Toml

/-- A value. -/
inductive Value where
  | string (s : Bytes)
  | integer (v : Int)
  /-- A floating-point number, a truth value, a date or a time. -/
  | other
  | array (items : List Value)
  | table (entries : List (Bytes × Value))
  /-- An array of tables that is written table by table. -/
  | tables (elements : List (List (Bytes × Value)))

/-- The value was written as an array. -/
def Value.isArray : Value → Bool
  | .array _ => true
  | _ => false

/-- A table: its keys with their values. -/
abbrev Table := List (Bytes × Value)

namespace Table

/-- The table with a value for a key.  A new key comes last. -/
def insert (key : Bytes) (value : Value) : Table → Table
  | [] => [(key, value)]
  | entry :: rest =>
    if entry.1 = key then (key, value) :: rest else entry :: insert key value rest

/-- The table that a value stands for on the way to a key: of an array of tables it is the last
one. -/
def inside? : Value → Option Table
  | .table t => some t
  | .tables ts => ts.getLast?
  | _ => none

/-- A value with the table that it stands for replaced. -/
def replaceInside (t : Table) : Value → Value
  | .tables ts => .tables (ts.dropLast ++ [t])
  | _ => .table t

/-- The table that a key leads to. -/
def at? (t : Table) : Key → Option Table
  | [] => some t
  | segment :: rest =>
    match (t.lookup segment).bind inside? with
    | some sub => at? sub rest
    | none => none

/-- Changes the table that a key leads to. -/
def change? (f : Table → Option Table) (t : Table) : Key → Option Table
  | [] => f t
  | segment :: rest =>
    match t.lookup segment with
    | none => none
    | some v =>
      match inside? v with
      | none => none
      | some sub => (change? f sub rest).map fun sub => t.insert segment (replaceInside sub v)

end Table

/-- What has been made of the lines so far. -/
structure Building where
  root : Table
  /-- The key of the open table. -/
  context : Key
  /-- The keys of tables that were only mentioned. -/
  mentioned : List Key
  /-- The keys whose value was written as an array. -/
  arrays : List Key

namespace Building

/-- Nothing yet. -/
def empty : Building :=
  ⟨[], [], [], []⟩

/-- Remembers that a table was only mentioned. -/
def mention (b : Building) (key : Key) : Building :=
  { b with mentioned := key :: b.mentioned }

/-- Forgets that a table was only mentioned. -/
def settle (b : Building) (key : Key) : Building :=
  { b with mentioned := b.mentioned.filter (· ≠ key) }

/-- The key for which the kind of a value is remembered.  An empty segment stands for the table
around it, unless that is the whole file. -/
def kindKey (context : Key) (segment : Bytes) : Key :=
  if segment = [] ∧ context ≠ [] then context else context ++ [segment]

/-- Remembers whether the value of a key was written as an array. -/
def noteKind (b : Building) (key : Key) (isArray : Bool) : Building :=
  let others := b.arrays.filter (· ≠ key)
  { b with arrays := if isArray then key :: others else others }

/-- Changes the open table. -/
def changeOpen? (b : Building) (f : Table → Option Table) : Option Building :=
  (b.root.change? f b.context).map fun root => { b with root := root }

/-- Gives a key of the open table a value.  A key that has a value already can be set once more if
it was only mentioned: it gets the new value if it was written as an array, and keeps the old one
otherwise. -/
def set? (b : Building) (segment : Bytes) (value : Value) : Option Building :=
  let key := b.context ++ [segment]
  match b.root.at? b.context with
  | none => none
  | some t =>
    match t.lookup segment with
    | none => b.changeOpen? fun t => some (t.insert segment value)
    | some _ =>
      if key ∉ b.mentioned then none
      else if key ∈ b.arrays then
        (b.settle key).changeOpen? fun t => some (t.insert segment value)
      else some (b.settle key)

/-- Makes sure that the tables on the way along `rest` exist, from the table at `done`. -/
def prepare? (b : Building) (done : Key) : Key → Option Building
  | [] => some b
  | segment :: rest =>
    match b.root.at? done with
    | none => none
    | some t =>
      match t.lookup segment with
      | some v =>
        if (Table.inside? v).isSome then prepare? b (done ++ [segment]) rest else none
      | none =>
        match b.root.change? (fun t => some (t.insert segment (.table []))) done with
        | none => none
        | some root =>
          let b : Building := { b with root := root }
          prepare? (b.mention (done ++ [segment])) (done ++ [segment]) rest

/-- Opens the table of a key. -/
def openTable? (b : Building) (key : Key) : Option Building :=
  match key.getLast? with
  | none => none
  | some last =>
    match b.prepare? [] key.dropLast with
    | none => none
    | some b =>
      (({ b with context := key.dropLast } : Building).set? last (.table [])).map fun b =>
        { b with context := key }

/-- Adds an element to an array of tables. -/
def grow : Option Value → Option Value
  | none => some (.tables [[]])
  | some (.tables ts) => some (.tables (ts ++ [[]]))
  | some _ => none

/-- Opens a new element of the array of tables of a key. -/
def openElement? (b : Building) (key : Key) : Option Building :=
  match key.getLast? with
  | none => none
  | some last =>
    match b.prepare? [] key.dropLast with
    | none => none
    | some b =>
      (({ b with context := key.dropLast } : Building).changeOpen? fun t =>
        (grow (t.lookup last)).map (t.insert last)).map fun b => { b with context := key }

/-- Opens the tables on the way along the segments of a dotted key, from the open table.  They count
as mentioned. -/
def openAlong? (b : Building) : Key → Option Building
  | [] => some b
  | segment :: rest =>
    let key := b.context ++ [segment]
    match (b.mention key).openTable? key with
    | none => none
    | some b => openAlong? b rest

end Building

/-- Follows a path of segments inside a table that is written in braces, and sets a value there. -/
def insertAlong? (segment : Bytes) (value : Value) : Key → Table → Option Table
  | [], t => some (t.insert segment value)
  | first :: rest, t =>
    match t.lookup first with
    | none => (insertAlong? segment value rest []).map fun sub => t.insert first (.table sub)
    | some (.table sub) =>
      (insertAlong? segment value rest sub).map fun sub => t.insert first (.table sub)
    | some _ => none

mutual

/-- The value of an expression that is written for the key `segment` of the open table; `inArray`
tells whether it is an element of an array.  A table in braces is built in place, as if its entries
were lines of their own. -/
def evaluate (b : Building) (segment : Bytes) (inArray : Bool) :
    Expr → Option (Value × Building)
  | .string s => some (.string s, b)
  | .integer v => some (.integer v, b)
  | .float => some (.other, b)
  | .boolean _ => some (.other, b)
  | .datetime => some (.other, b)
  | .array items =>
    (evaluateItems (b.noteKind (Building.kindKey b.context segment) true) segment items).map
      fun (values, b) => (.array values, b)
  | .table entries =>
    let key := b.context ++ [segment]
    let opened := b.mention key
    match (if inArray then opened.openElement? key else opened.openTable? key) with
    | none => none
    | some inner =>
      (evaluateEntries inner [] entries).map fun (t, inner) =>
        (.table t, { inner with context := b.context })

/-- The values of the elements of an array. -/
def evaluateItems (b : Building) (segment : Bytes) :
    List Expr → Option (List Value × Building)
  | [] => some ([], b)
  | item :: items =>
    match evaluate b segment true item with
    | none => none
    | some (value, b) =>
      (evaluateItems b segment items).map fun (values, b) => (value :: values, b)

/-- The table of entries in braces; `done` holds the entries so far. -/
def evaluateEntries (b : Building) (done : Table) :
    List Entry → Option (Table × Building)
  | [] => some (done, b)
  | .mk key value :: entries =>
    match key.getLast? with
    | none => none
    | some last =>
      match b.openAlong? key.dropLast with
      | none => none
      | some inner =>
        match evaluate inner last false value with
        | none => none
        | some (v, inner) =>
          match inner.set? last v, insertAlong? last v key.dropLast done with
          | some inner, some done =>
            let inner := inner.noteKind (Building.kindKey inner.context last) v.isArray
            evaluateEntries { inner with context := b.context } done entries
          | _, _ => none

end

namespace Building

/-- Follows a line. -/
def follow? (b : Building) : Line → Option Building
  | .table key => (b.openTable? key).map fun b => b.noteKind key false
  | .element key => (b.openElement? key).map fun b => b.noteKind key false
  | .assign key value =>
    match evaluateEntries b [] [.mk key value] with
    | some (_, b) => some b
    | none => none

end Building

/-- The table that lines describe. -/
def tableOf? (lines : List Line) : Option Table :=
  (lines.foldlM Building.follow? Building.empty).map (·.root)

end LuaAssembly.Toml
