import LuaAssembly.Cbor.Item

/-!
# Reading data items

Reading accepts every well-formed item, canonical or not, as long as it stays within two limits:
how deep arrays and maps are nested, and how many elements one of them has.  Strings, arrays and
maps of unknown length end at a break byte.
-/
namespace LuaAssembly.Cbor

open scoped Power

/-- How deep arrays and maps may be nested. -/
def maxLevels : Nat := 32

/-- How many elements an array, or entries a map, may have. -/
def maxElements : Nat := 131072

/-- The head of an item. -/
structure Head where
  major : Major
  /-- The low five bits of the first byte. -/
  info : Nat
  /-- The number that goes with the type. -/
  value : Nat

namespace Head

/-- The information that announces an unknown length. -/
def openEnded : Nat := 31

/-- The length is not known in advance. -/
def isOpen (h : Head) : Bool :=
  h.info = openEnded

/-- Items of this type may have an unknown length. -/
def mayBeOpen : Major → Bool
  | .bytes | .text | .array | .map => true
  | _ => false

/-- Simple values below 32 are not written with a byte of their own. -/
def isWasteful (h : Head) : Bool :=
  h.major = .other && h.info = 24 && h.value < 32

/-- Reads a head. -/
def read? : Bytes → Option (Head × Bytes)
  | [] => none
  | b :: rest =>
    let major := Major.ofNumber (b.toNat / 32)
    let info := b.toNat % 32
    if info < 24 then some (⟨major, info, info⟩, rest)
    else if info < 28 then
      match Bytes.splitAt? (2 ^ (info - 24)) rest with
      | some (front, back) =>
        let h : Head := ⟨major, info, Sized.read .big front⟩
        if h.isWasteful then none else some (h, back)
      | none => none
    else if info = openEnded ∧ mayBeOpen major then some (⟨major, info, 0⟩, rest)
    else none

end Head

/-- The byte that ends an item of unknown length. -/
def breakByte : UInt8 := 0xFF

/-- Reads the chunks of a string of unknown length, up to the break.  Each chunk is a string of
the same type and of known length. -/
def chunksUntilBreak (major : Major) : Nat → Bytes → Option (List Bytes × Bytes)
  | 0, _ => none
  | fuel + 1, bs =>
    if bs.head? = some breakByte then some ([], bs.tail)
    else
      match Head.read? bs with
      | none => none
      | some (h, rest) =>
        if h.major = major ∧ ¬ h.isOpen then
          match Bytes.splitAt? h.value rest with
          | none => none
          | some (chunk, rest) =>
            match chunksUntilBreak major fuel rest with
            | none => none
            | some (chunks, rest) => some (chunk :: chunks, rest)
        else none

/-- Reads what follows the head of a string. -/
def chunks? (h : Head) (bs : Bytes) : Option (List Bytes × Bytes) :=
  if h.isOpen then chunksUntilBreak h.major (bs.length + 1) bs
  else
    match Bytes.splitAt? h.value bs with
    | some (chunk, rest) => some ([chunk], rest)
    | none => none

variable (read : Bytes → Option (Item × Bytes))

/-- Reads `n` items after those in `acc`, which are kept newest first. -/
def itemsOnto : Nat → List Item → Bytes → Option (List Item × Bytes)
  | 0, acc, bs => some (acc.reverse, bs)
  | n + 1, acc, bs =>
    match read bs with
    | some (item, rest) => itemsOnto n (item :: acc) rest
    | none => none

/-- Reads items up to the break after those in `acc`, which are kept newest first. -/
def itemsUntilBreak : Nat → List Item → Bytes → Option (List Item × Bytes)
  | 0, _, _ => none
  | fuel + 1, acc, bs =>
    if bs.head? = some breakByte then some (acc.reverse, bs.tail)
    else
      match read bs with
      | some (item, rest) => itemsUntilBreak fuel (item :: acc) rest
      | none => none

/-- Reads what follows the head of an array, or of a map if `perElement` is two. -/
def elements? (perElement : Nat) (h : Head) (bs : Bytes) : Option (List Item × Bytes) :=
  if h.isOpen then
    match itemsUntilBreak read (bs.length + 1) [] bs with
    | some (items, rest) =>
      if items.length % perElement = 0 ∧ items.length / perElement ≤ maxElements then
        some (items, rest)
      else none
    | none => none
  else if h.value ≤ maxElements then itemsOnto read (perElement * h.value) [] bs
  else none

/-- The item of the last major type with a given head. -/
def otherItem (h : Head) : Item :=
  if h.info = 25 then .float (.widen .half h.value)
  else if h.info = 26 then .float (.widen .single h.value)
  else if h.info = 27 then .float ⟨BitVec.ofNat 64 h.value⟩
  else .simple h.value

/-- Reads an item that may nest arrays and maps `levels` deep.  Every tag that directly follows
another one counts as a level; `tagged` tells whether there is a tag in front. -/
def item? : Nat → Nat → Bool → Bytes → Option (Item × Bytes)
  | 0, _, _, _ => none
  | fuel + 1, levels, tagged, bs =>
    match Head.read? bs with
    | none => none
    | some (h, rest) =>
      match h.major with
      | .unsigned => some (.unsigned h.value, rest)
      | .negative => some (.negative h.value, rest)
      | .bytes => (chunks? h rest).map fun (chunks, rest) => (.bytes chunks, rest)
      | .text => (chunks? h rest).map fun (chunks, rest) => (.text chunks, rest)
      | .array =>
        if levels = 0 then none
        else
          (elements? (item? fuel (levels - 1) false) 1 h rest).map fun (items, rest) =>
            (.array items, rest)
      | .map =>
        if levels = 0 then none
        else
          (elements? (item? fuel (levels - 1) false) 2 h rest).map fun (items, rest) =>
            (.map items, rest)
      | .tag =>
        if tagged ∧ levels = 0 then none
        else
          (item? fuel (if tagged then levels - 1 else levels) true rest).map
            fun (content, rest) => (.tag h.value content, rest)
      | .other => some (otherItem h, rest)

/-- Reads exactly one item.  A level holds at most one array or map and one tag in front of it, so
the recursion is never deeper than twice the number of levels. -/
def decode? (bs : Bytes) : Option Item :=
  match item? (2 * maxLevels + 2) maxLevels false bs with
  | some (item, []) => some item
  | _ => none

end LuaAssembly.Cbor
