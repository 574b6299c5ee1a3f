import LuaAssembly.Bytes

/-!
# The syntax of configuration files

Configuration files are written in TOML.  A file is a sequence of lines: a line opens a table,
opens a new element of an array of tables, or gives a key a value.  What the lines mean together is
worked out afterwards.
-/
namespace LuaAssembly.Toml

/-- A dotted key: its segments. -/
abbrev Key := List Bytes

mutual

/-- A value as it is written. -/
inductive Expr where
  | string (s : Bytes)
  | integer (v : Int)
  | float
  | boolean (b : Bool)
  /-- A date, a time, or both. -/
  | datetime
  | array (items : List Expr)
  /-- A table in braces. -/
  | table (entries : List Entry)

/-- A key with its value. -/
inductive Entry where
  | mk (key : Key) (value : Expr)

end

/-- A line of a file. -/
inductive Line where
  | table (key : Key)
  /-- Opens a new element of an array of tables. -/
  | element (key : Key)
  | assign (key : Key) (value : Expr)

end LuaAssembly.Toml
