import LuaAssembly.Bytes.Utf8
import LuaAssembly.Cbor.Read
import LuaAssembly.Document.Export

/-!
# Reading documents

Any item of the right shape is read as a document, however it is written.  Missing entries and
null stand for zero, the empty string or the empty list; entries with unknown keys are ignored;
of several entries with one key the first counts.  Keys may also be given as text, without regard
to case.
-/
namespace LuaAssembly

open Cbor
open scoped Power

namespace Import

/-! ## Tags -/

/-- The content of a tag has the type that the tag requires. -/
def tagAllows (number : Nat) (content : Item) : Bool :=
  match number, content with
  | 0, .text _ => true
  | 0, _ => false
  | 1, .unsigned _ | 1, .negative _ | 1, .float _ => true
  | 1, _ => false
  | 2, .bytes _ | 3, .bytes _ => true
  | 2, _ | 3, _ => false
  | _, _ => true

/-- The item under its tags; tags that make an integer of a byte string are kept. -/
def untag? : Item → Option Item
  | .tag n content =>
    if !tagAllows n content then none
    else if n = 2 ∨ n = 3 then some (.tag n content)
    else untag? content
  | item => some item

/-! ## Scalars -/

/-- The number whose bytes, most significant first, are the chunks of a string. -/
def bigNatural (chunks : List Bytes) : Nat :=
  Sized.read .big chunks.flatten

/-- The integer that an item under no further tag stands for, zero for null.  Integers of more than
64 bits stand for nothing. -/
def integer? : Item → Option Int
  | .unsigned n => some n
  | .negative n => if n < 2 ^ (63 : Nat) then some (-1 - n) else none
  | .tag 2 (.bytes chunks) =>
    if bigNatural chunks < 2 ^ (64 : Nat) then some (bigNatural chunks) else none
  | .tag 3 (.bytes chunks) =>
    if bigNatural chunks < 2 ^ (63 : Nat) then some (-1 - bigNatural chunks) else none
  | .simple n =>
    if n < 20 ∨ 24 ≤ n then some n else if n = 22 ∨ n = 23 then some 0 else none
  | _ => none

/-- An integer between two bounds. -/
def bounded? (lo hi : Int) (item : Item) : Option Int :=
  match (untag? item).bind integer? with
  | some v => if lo ≤ v ∧ v ≤ hi then some v else none
  | none => none

/-- An integer of 64 bits. -/
def int? (item : Item) : Option Int :=
  bounded? (-2 ^ (63 : Nat)) (2 ^ (63 : Nat) - 1) item

/-- A byte. -/
def byte? (item : Item) : Option UInt8 :=
  (bounded? 0 255 item).map fun v => UInt8.ofNat v.toNat

/-- An instruction word. -/
def word? (item : Item) : Option Word :=
  (bounded? 0 (2 ^ (32 : Nat) - 1) item).map (BitVec.ofInt 32)

/-- A number. -/
def number? (item : Item) : Option Number :=
  match untag? item with
  | some (.float v) => some v
  | some item => (integer? item).map .ofInt
  | none => none

/-- A truth value. -/
def bool? (item : Item) : Option Bool :=
  match untag? item with
  | some (.simple 20) => some false
  | some (.simple 21) => some true
  | some item => if item.isNull then some false else none
  | none => none

/-- Text, every chunk of which is valid UTF-8. -/
def validText? (chunks : List Bytes) : Option Bytes :=
  if chunks.all Utf8.isValid then some chunks.flatten else none

/-- A string. -/
def string? (item : Item) : Option Bytes :=
  match untag? item with
  | some (.text chunks) => validText? chunks
  | some item => if item.isNull then some [] else none
  | none => none

/-- A list of things of one kind. -/
def list? {α : Type} (element? : Item → Option α) (item : Item) : Option (List α) :=
  match untag? item with
  | some (.array items) => items.mapM element?
  | some item => if item.isNull then some [] else none
  | none => none

/-- Exactly `n` bytes: what is too much is cut off and what is missing is zero. -/
def fit (n : Nat) (bs : Bytes) : Bytes :=
  bs.take n ++ List.replicate (n - bs.length) 0

/-- The length of a digest. -/
def digestLength : Nat := 32

/-- A digest, as a byte string or as an array of bytes. -/
def digest? (item : Item) : Option Bytes :=
  match untag? item with
  | some (.bytes chunks) => some (fit digestLength chunks.flatten)
  | some (.tag _ (.bytes chunks)) => some (fit digestLength chunks.flatten)
  | some (.array items) => ((items.take digestLength).mapM byte?).map (fit digestLength)
  | some item => if item.isNull then some (fit digestLength []) else none
  | none => none

/-! ## Maps -/

/-- How the key of a part is given: as a number, or only as a word. -/
inductive Key where
  /-- The number, which may also be given as a numeral. -/
  | number (n : Nat)
  | word (name : String)

namespace Key

/-- The key as text. -/
def text : Key → Bytes
  | .number n => Numeral.ofNat n
  | .word name => utf8 name

/-- The key as an integer of 64 bits, for keys that are numbers. -/
def hasNumber (v : Int) : Key → Bool
  | .number n => Int.bmod v (2 ^ (64 : Nat)) = n
  | .word _ => false

/-- A key of a map is this key.  The case of letters does not matter. -/
def isKey (key : Key) : Item → Bool
  | .unsigned n => key.hasNumber n
  | .negative n => key.hasNumber (-1 - n)
  | .text chunks => chunks.flatten.map Bytes.lowerAscii = key.text.map Bytes.lowerAscii
  | _ => false

end Key

/-- A key is an integer or valid text. -/
def isKeyItem : Item → Bool
  | .unsigned _ | .negative _ => true
  | .text chunks => chunks.all Utf8.isValid
  | _ => false

/-- All keys of a map are integers or valid text. -/
def keysAllowed : List Item → Bool
  | key :: _ :: rest => isKeyItem key && keysAllowed rest
  | _ => true

/-- The value of a key in a map. -/
def lookup? (key : Key) : List Item → Option Item
  | k :: value :: rest => if key.isKey k then some value else lookup? key rest
  | _ => none

/-- A part of a map, null when it is missing. -/
def part? {α : Type} (items : List Item) (key : Key) (read? : Item → Option α) : Option α :=
  read? ((lookup? key items).getD .null)

/-- A map with allowed keys; null stands for the empty map. -/
def entries? (item : Item) : Option (List Item) :=
  match untag? item with
  | some (.map items) => if keysAllowed items then some items else none
  | some item => if item.isNull then some [] else none
  | none => none

/-! ## The parts of a document -/

/-- A header. -/
def header? (item : Item) : Option DocumentHeader := do
  let items ← entries? item
  return {
    format := ← part? items (.number 1) byte?
    endianness := ← part? items (.number 2) string?
    intSize := ← part? items (.number 3) byte?
    sizeTSize := ← part? items (.number 4) byte?
    instructionSize := ← part? items (.number 5) byte?
    numberSize := ← part? items (.number 6) byte?
    integral := ← part? items (.number 7) bool? }

/-- An instruction. -/
def instruction? (item : Item) : Option DocumentInstruction := do
  let items ← entries? item
  return {
    word := ← part? items (.number 1) word?
    op := ← part? items (.number 2) string?
    a := ← part? items (.number 3) int?
    b := ← part? items (.number 4) int?
    c := ← part? items (.number 5) int?
    bx := ← part? items (.number 6) int?
    text := ← part? items (.number 7) string? }

/-- A constant. -/
def constant? (item : Item) : Option Constant := do
  let items ← entries? item
  return {
    tag := ← part? items (.number 1) byte?
    number := ← part? items (.number 2) number?
    string := ← part? items (.number 3) string? }

/-- A local variable. -/
def localVar? (item : Item) : Option LocalVar := do
  let items ← entries? item
  return {
    name := ← part? items (.word "Name") string?
    first := ← part? items (.word "Begin") int?
    last := ← part? items (.word "End") int? }

/-- An upvalue. -/
def upvalue? (item : Item) : Option Upvalue := do
  let items ← entries? item
  return {
    name := ← part? items (.word "Name") string?
    index := ← part? items (.word "Index") int?
    inStack := ← part? items (.word "InStack") bool? }

/-- A function, apart from the functions nested in it. -/
def function? (items : List Item) : Option DocumentFunction := do
  return {
    path := ← part? items (.number 1) string?
    source := ← part? items (.number 2) string?
    lineDefined := ← part? items (.number 3) int?
    lastLineDefined := ← part? items (.number 4) int?
    numParams := ← part? items (.number 5) byte?
    isVararg := ← part? items (.number 6) byte?
    maxStackSize := ← part? items (.number 7) byte?
    code := ← part? items (.number 8) (list? instruction?)
    constants := ← part? items (.number 9) (list? constant?)
    lines := ← part? items (.number 11) (list? int?)
    locals := ← part? items (.number 12) (list? localVar?)
    upvalues := ← part? items (.number 13) (list? upvalue?) }

/-- The key of the functions nested in a function. -/
def nestedKey : Key := .number 10

mutual

/-- A function with the functions nested in it, at a place that is not empty. -/
def tree? : Item → Option (FunctionTree DocumentFunction)
  | .map items =>
    if keysAllowed items then
      match function? items, nestedIn? items with
      | some f, some nested => some (.node f nested)
      | _, _ => none
    else none
  | .tag n content =>
    if !tagAllows n content ∨ n = 2 ∨ n = 3 then none else tree? content
  | .simple n =>
    if n = 22 ∨ n = 23 then (function? []).map (.node · []) else none
  | _ => none

/-- The functions nested in a function, among the entries of its map. -/
def nestedIn? : List Item → Option (List (FunctionTree DocumentFunction))
  | k :: value :: rest => if nestedKey.isKey k then trees? value else nestedIn? rest
  | _ => some []

/-- A list of functions. -/
def trees? : Item → Option (List (FunctionTree DocumentFunction))
  | .array items => places? items
  | .tag n content =>
    if !tagAllows n content ∨ n = 2 ∨ n = 3 then none else trees? content
  | .simple n => if n = 22 ∨ n = 23 then some [] else none
  | _ => none

/-- The places of a list of functions; null leaves a place empty. -/
def places? : List Item → Option (List (FunctionTree DocumentFunction))
  | [] => some []
  | item :: items =>
    match (if item.isNull then some .absent else tree? item), places? items with
    | some t, some ts => some (t :: ts)
    | _, _ => none

end

/-- The main function; null leaves it out. -/
def main? (item : Item) : Option (FunctionTree DocumentFunction) :=
  if item.isNull then some .absent else tree? item

/-- A document. -/
def document? (item : Item) : Option Document := do
  let items ← entries? item
  return {
    digest := ← part? items (.number 1) digest?
    header := ← part? items (.number 2) header?
    main := ← part? items (.number 3) main? }

end Import

/-- Bytes are not the bytes of a document. -/
inductive ImportProblem where
  /-- They are no item, or an item of another shape. -/
  | unreadable
  deriving DecidableEq

/-- The text of the problem. -/
def ImportProblem.message : ImportProblem → Bytes
  | .unreadable => utf8 "listing: unmarshal chunk"

namespace Document

/-- Reads a document. -/
def decode (bs : Bytes) : Except ImportProblem Document :=
  match (Cbor.decode? bs).bind Import.document? with
  | some d => .ok d
  | none => .error .unreadable

end Document

end LuaAssembly
