import LuaAssembly.Toml.Read
import LuaAssembly.Toml.Table

/-!
# Settings

A configuration is a record that is filled from a table.  A setting says which key fills which part
of the record and what kind of value it takes.  Keys that belong to no setting are ignored; the case
of keys does not matter.
-/
namespace LuaAssembly.Toml

/-- A part of a record `α` that a key fills. -/
structure Setting (α : Type) where
  name : Bytes
  /-- The record with the value of the key; nothing for a value of another kind. -/
  apply : Value → α → Option α

/-- A key with capital letters replaced by small ones.  Two letters that are not ASCII have ASCII
letters for their small forms. -/
def foldKey : Bytes → Bytes
  | [] => []
  | 0xC5 :: 0xBF :: rest => 0x73 :: foldKey rest
  | 0xE2 :: 0x84 :: 0xAA :: rest => 0x6B :: foldKey rest
  | b :: rest => Bytes.lowerAscii b :: foldKey rest

namespace Setting

variable {α β : Type}

/-- A setting that takes a string. -/
def string (name : String) (put : Bytes → α → α) : Setting α :=
  ⟨utf8 name, fun
    | .string s, record => some (put s record)
    | _, _ => none⟩

/-- A setting that takes an integer. -/
def integer (name : String) (put : Int → α → α) : Setting α :=
  ⟨utf8 name, fun
    | .integer v, record => some (put v record)
    | _, _ => none⟩

/-- Fills a record from a table. -/
def fill (settings : List (Setting α)) (t : Table) (record : α) : Option α :=
  t.foldlM
    (fun record (key, value) =>
      match settings.find? fun s => s.name = foldKey key with
      | some s => s.apply value record
      | none => some record)
    record

/-- A setting that takes a table with settings of its own. -/
def table (name : String) (settings : List (Setting β)) (get : α → β) (put : β → α → α) :
    Setting α :=
  ⟨utf8 name, fun
    | .table t, record => (fill settings t (get record)).map (put · record)
    | _, _ => none⟩

/-- Fills one record for every table of a list. -/
def fillAll? (settings : List (Setting β)) (start : β) : Value → Option (List β)
  | .tables ts => ts.mapM (fill settings · start)
  | .array items =>
    items.mapM fun
      | .table t => fill settings t start
      | _ => none
  | _ => none

/-- A setting that takes a list of tables with settings of their own. -/
def tables (name : String) (settings : List (Setting β)) (start : β) (put : List β → α → α) :
    Setting α :=
  ⟨utf8 name, fun value record => (fillAll? settings start value).map (put · record)⟩

/-- Reads a file and fills a record from it. -/
def load? (settings : List (Setting α)) (start : α) (file : Bytes) : Option α :=
  match (read? file).bind tableOf? with
  | some t => fill settings t start
  | none => none

end Setting

end LuaAssembly.Toml
