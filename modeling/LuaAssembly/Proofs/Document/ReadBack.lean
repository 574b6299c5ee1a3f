import Mathlib
import LuaAssembly.Document.Import
import LuaAssembly.Proofs.Bytes.Utf8
import LuaAssembly.Proofs.Cbor.ReadBack
import LuaAssembly.Proofs.Chunk.Tree

/-!
# Reading back documents

A document is written as an item, and the item is read as a document again.  What comes back is the
document itself, up to the numbers of its constants: a zero is left out, so it comes back without
its sign, and what is not a number comes back quiet.  Strings are written as text whether they are
valid or not, but only valid text is read, so there is a result exactly when every string of the
document is valid.
-/
namespace LuaAssembly

open Cbor Import

/-! ## Sizes of a document -/

/-- The integer has at most 64 bits, the sign included. -/
def IsInt64 (v : Int) : Prop :=
  -2 ^ 63 ≤ v ∧ v < 2 ^ 63

instance (v : Int) : Decidable (IsInt64 v) :=
  inferInstanceAs (Decidable (_ ∧ _))

/-- A list or a string of this length can be held in memory. -/
def IsLength (n : Nat) : Prop :=
  n < 2 ^ 63

instance (n : Nat) : Decidable (IsLength n) :=
  inferInstanceAs (Decidable (_ < _))

namespace DocumentFunction

/-- Every integer of the function satisfies `P`. -/
@[mk_iff]
structure Integers (P : Int → Prop) (f : DocumentFunction) : Prop where
  lineDefined : P f.lineDefined
  lastLineDefined : P f.lastLineDefined
  code : ∀ i ∈ f.code, P i.a ∧ P i.b ∧ P i.c ∧ P i.bx
  lines : ∀ v ∈ f.lines, P v
  locals : ∀ v ∈ f.locals, P v.first ∧ P v.last
  upvalues : ∀ u ∈ f.upvalues, P u.index

/-- Every string of the function satisfies `P`. -/
@[mk_iff]
structure Strings (P : Bytes → Prop) (f : DocumentFunction) : Prop where
  path : P f.path
  source : P f.source
  code : ∀ i ∈ f.code, P i.op ∧ P i.text
  constants : ∀ k ∈ f.constants, P k.string
  locals : ∀ v ∈ f.locals, P v.name
  upvalues : ∀ u ∈ f.upvalues, P u.name

/-- The length of every list of the function satisfies `P`; `nested` is the number of functions
nested in it. -/
@[mk_iff]
structure Counts (P : Nat → Prop) (f : DocumentFunction) (nested : Nat) : Prop where
  code : P f.code.length
  constants : P f.constants.length
  nested : P nested
  lines : P f.lines.length
  locals : P f.locals.length
  upvalues : P f.upvalues.length

/-- The function can be held in memory, where integers have 64 bits. -/
@[mk_iff]
structure InMemory (f : DocumentFunction) (nested : Nat) : Prop where
  integers : f.Integers IsInt64
  strings : f.Strings fun s => IsLength s.length
  counts : f.Counts IsLength nested

instance {P : Int → Prop} [DecidablePred P] (f : DocumentFunction) : Decidable (f.Integers P) :=
  decidable_of_iff _ (integers_iff P f).symm

instance {P : Bytes → Prop} [DecidablePred P] (f : DocumentFunction) : Decidable (f.Strings P) :=
  decidable_of_iff _ (strings_iff P f).symm

instance {P : Nat → Prop} [DecidablePred P] (f : DocumentFunction) (nested : Nat) :
    Decidable (f.Counts P nested) :=
  decidable_of_iff _ (counts_iff P f nested).symm

instance (f : DocumentFunction) (nested : Nat) : Decidable (f.InMemory nested) :=
  decidable_of_iff _ (inMemory_iff f nested).symm

/-- The function with other constants. -/
def mapConstants (g : Constant → Constant) (f : DocumentFunction) : DocumentFunction :=
  { f with constants := f.constants.map g }

end DocumentFunction

/-- The constant with another number. -/
def Constant.mapNumber (g : Number → Number) (k : Constant) : Constant :=
  { k with number := g k.number }

namespace Number

/-- The number as it is read where a zero is left out. -/
def unsignedZero (v : Number) : Number :=
  if v.isZero then zero else v

/-- The number as it is read back from a document. -/
def imported (v : Number) : Number :=
  v.settled.unsignedZero

theorem isZero_settled (v : Number) : v.settled.isZero = v.isZero := by
  rw [settled]
  split_ifs with hnan
  · have hpos : 0 < v.magnitude := (Nat.zero_le _).trans_lt (of_decide_eq_true hnan)
    rw [show quiet.isZero = false by decide +kernel, isZero, decide_eq_false hpos.ne']
  · rfl

end Number

/-! ## Scalars -/

namespace Import

theorem bounded?_eq {item : Item} {lo hi v : Int} (hitem : untag? item = some item)
    (hint : integer? item = some v) (hlo : lo ≤ v) (hhi : v ≤ hi) :
    bounded? lo hi item = some v := by
  rw [bounded?, hitem, Option.bind_some, hint]
  exact if_pos ⟨hlo, hhi⟩

theorem int?_ofInt {v : Int} (hv : IsInt64 v) : int? (.ofInt v) = some v := by
  have hhi := Int.le_sub_one_of_lt hv.2
  rw [Item.ofInt]
  split_ifs with hneg
  · have hn : (-1 - v).toNat < 2 ^ 63 := by
      have := hv.1
      omega
    have hback : -1 - ((-1 - v).toNat : Int) = v := by omega
    refine bounded?_eq rfl ?_ hv.1 hhi
    rw [integer?, if_pos hn, hback]
  · refine bounded?_eq rfl ?_ hv.1 hhi
    rw [integer?, Int.toNat_of_nonneg (not_lt.1 hneg)]

theorem bounded?_unsigned {n : Nat} {hi : Int} (hn : (n : Int) ≤ hi) :
    bounded? 0 hi (.unsigned n) = some (n : Int) :=
  bounded?_eq rfl rfl (Int.natCast_nonneg n) hn

theorem byte?_ofByte (b : UInt8) : byte? (.ofByte b) = some b := by
  have hb := b.toNat_lt
  rw [byte?, Item.ofByte, bounded?_unsigned (by omega), Option.map_some, Int.toNat_natCast,
    UInt8.ofNat_toNat]

theorem word?_unsigned (w : Word) : word? (.unsigned w.toNat) = some w := by
  have hw : (w.toNat : Int) ≤ 2 ^ 32 - 1 := by
    have := w.isLt
    omega
  rw [word?, bounded?_unsigned hw, Option.map_some, BitVec.ofInt_natCast, BitVec.ofNat_toNat,
    BitVec.setWidth_eq]

theorem bool?_ofBool (b : Bool) : bool? (.ofBool b) = some b := by
  cases b <;> rfl

theorem givesIff_string? (s : Bytes) :
    GivesIff (string? (.ofText s)) (Utf8.isValid s = true) s := by
  have hstring : string? (.ofText s) = if Utf8.isValid s then some s else none := by
    rw [show string? (.ofText s) = validText? [s] from rfl, validText?, List.flatten_singleton,
      List.all_cons, List.all_nil, Bool.and_true]
  rw [hstring]
  exact ((GivesIff.some s).guard).congr (iff_of_eq (and_true _))

end Import

/-! ## Entries -/

namespace Document

variable {α : Type} {k : Nat} {value : Item} {xs rest : List Item}

/-- A key that is a number is found where it stands. -/
theorem isKey_number_unsigned {j k : Nat} (hj : j < 2 ^ 63) :
    (Key.number k).isKey (.unsigned j) = decide (j = k) := by
  rw [Key.isKey, Key.hasNumber, Int.bmod_eq_of_le (by omega) (by omega), decide_eq_decide]
  exact Nat.cast_inj

theorem lookup?_nil {key : Key} : lookup? key [] = none := rfl

theorem lookup?_entry {j : Nat} (hj : j < 2 ^ 63) :
    lookup? (.number k) (entry j value ++ rest) =
      if j = k then some value else lookup? (.number k) rest := by
  rw [entry, List.cons_append, List.cons_append, List.nil_append, lookup?,
    isKey_number_unsigned hj]
  simp only [decide_eq_true_eq]

/-- An entry that may be left out. -/
theorem lookup?_optional {j : Nat} (hj : j < 2 ^ 63) (omitted : Bool) :
    lookup? (.number k) ((if omitted then [] else entry j value) ++ rest) =
      if j = k ∧ omitted = false then some value else lookup? (.number k) rest := by
  cases omitted with
  | true => simp
  | false => simp [lookup?_entry hj]

theorem lookup?_listEntry {j : Nat} (hj : j < 2 ^ 63) :
    lookup? (.number k) (listEntry j xs ++ rest) =
      if j = k ∧ xs.isEmpty = false then some (.array xs) else lookup? (.number k) rest :=
  lookup?_optional hj xs.isEmpty

theorem keysAllowed_entry : keysAllowed (entry k value ++ rest) = keysAllowed rest := rfl

theorem keysAllowed_optional (omitted : Bool) :
    keysAllowed ((if omitted then [] else entry k value) ++ rest) = keysAllowed rest := by
  cases omitted <;> rfl

theorem keysAllowed_listEntry : keysAllowed (listEntry k xs ++ rest) = keysAllowed rest :=
  keysAllowed_optional xs.isEmpty

theorem nestedIn?_eq (items : List Item) :
    nestedIn? items = (lookup? nestedKey items).elim (some []) trees? := by
  induction items using lookup?.induct nestedKey with
  | case1 k value rest hk => rw [nestedIn?, lookup?, if_pos hk, if_pos hk, Option.elim_some]
  | case2 k value rest hk ih => rw [nestedIn?, lookup?, if_neg hk, if_neg hk, ih]
  | case3 items hitems =>
    rw [nestedIn?.eq_2 _ hitems, lookup?.eq_2 _ _ hitems, Option.elim_none]

/-- A list is read element by element, also where it is left out because it is empty. -/
theorem givesIff_list {α : Type} {toItem : α → Item} {element? : Item → Option α} {P : α → Prop}
    {g : α → α} {ys : List α} {key : Key} {items : List Item}
    (hitems : lookup? key items =
      if (ys.map toItem).isEmpty = false then some (.array (ys.map toItem)) else none)
    (hread : ∀ y ∈ ys, GivesIff (element? (toItem y)) (P y) (g y)) :
    GivesIff (part? items key (list? element?)) (∀ y ∈ ys, P y) (ys.map g) := by
  have hpart : part? items key (list? element?) = ys.mapM fun y => element? (toItem y) := by
    rw [part?, hitems]
    cases ys with
    | nil => rfl
    | cons y ys => exact List.mapM_map
  rw [hpart]
  exact GivesIff.mapM hread

/-! ## The parts of a document -/

theorem givesIff_byte? (b : UInt8) : GivesIff (byte? (.ofByte b)) True b :=
  .of_eq_some (byte?_ofByte b)

theorem givesIff_int? {v : Int} (hv : IsInt64 v) : GivesIff (int? (.ofInt v)) True v :=
  .of_eq_some (int?_ofInt hv)

theorem givesIff_bool? (b : Bool) : GivesIff (bool? (.ofBool b)) True b :=
  .of_eq_some (bool?_ofBool b)

theorem givesIff_header? (h : DocumentHeader) :
    GivesIff (header? (headerItem h)) (Utf8.isValid h.endianness = true) h := by
  have hentries : GivesIff (entries? (headerItem h)) True _ := .of_eq_some rfl
  rw [header?]
  refine GivesIff.congr (hentries.bind <| (givesIff_byte? h.format).bind <|
    (givesIff_string? h.endianness).bind <| (givesIff_byte? h.intSize).bind <|
    (givesIff_byte? h.sizeTSize).bind <| (givesIff_byte? h.instructionSize).bind <|
    (givesIff_byte? h.numberSize).bind <| (givesIff_bool? h.integral).bind <| .some _) ?_
  simp only [true_and, and_true]

theorem givesIff_instruction? {i : DocumentInstruction}
    (hi : IsInt64 i.a ∧ IsInt64 i.b ∧ IsInt64 i.c ∧ IsInt64 i.bx) :
    GivesIff (instruction? (instructionItem i))
      (Utf8.isValid i.op = true ∧ Utf8.isValid i.text = true) i := by
  have hentries : GivesIff (entries? (instructionItem i)) True _ := .of_eq_some rfl
  have hword : GivesIff (word? (.unsigned i.word.toNat)) True i.word :=
    .of_eq_some (word?_unsigned _)
  rw [instruction?]
  refine GivesIff.congr (hentries.bind <| hword.bind <| (givesIff_string? i.op).bind <|
    (givesIff_int? hi.1).bind <| (givesIff_int? hi.2.1).bind <| (givesIff_int? hi.2.2.1).bind <|
    (givesIff_int? hi.2.2.2).bind <| (givesIff_string? i.text).bind <| .some _) ?_
  simp only [true_and, and_true]

theorem givesIff_constant? (k : Constant) :
    GivesIff (constant? (constantItem k)) (Utf8.isValid k.string = true)
      (k.mapNumber Number.unsignedZero) := by
  obtain ⟨items, hitems, hkeys, htag, hnumber, hstring⟩ : ∃ items,
      constantItem k = .map items ∧ keysAllowed items = true ∧
      lookup? (.number 1) items = some (.ofByte k.tag) ∧
      lookup? (.number 2) items =
        (if k.number.isZero = false then some (.float k.number) else none) ∧
      lookup? (.number 3) items =
        (if k.string.isEmpty = false then some (.ofText k.string) else none) := by
    refine ⟨entry 1 (.ofByte k.tag) ++
      ((if k.number.isZero then [] else entry 2 (.float k.number)) ++
        ((if k.string.isEmpty then [] else entry 3 (.ofText k.string)) ++ [])), ?_, ?_, ?_, ?_, ?_⟩
    · rw [constantItem, List.append_nil, List.append_assoc]
    · rw [keysAllowed_entry, keysAllowed_optional, keysAllowed_optional]
      rfl
    all_goals
      simp (disch := decide) only [lookup?_entry, lookup?_optional, lookup?_nil, Nat.reduceEqDiff,
        false_and, true_and, reduceIte]
  have hentries : GivesIff (entries? (constantItem k)) True items := by
    refine .of_eq_some ?_
    rw [hitems]
    exact if_pos hkeys
  have htag : GivesIff (part? items (.number 1) byte?) True k.tag := by
    rw [part?, htag]
    exact givesIff_byte? _
  have hnumber : GivesIff (part? items (.number 2) number?) True k.number.unsignedZero := by
    refine .of_eq_some ?_
    have hzero : Number.ofInt 0 = .zero := by decide +kernel
    rw [part?, hnumber, Number.unsignedZero, ← hzero]
    cases k.number.isZero <;> rfl
  have hstring : GivesIff (part? items (.number 3) string?) (Utf8.isValid k.string = true)
      k.string := by
    rw [part?, hstring]
    cases k.string with
    | nil => exact (GivesIff.some []).congr (by simp [Utf8.isValid_nil])
    | cons b bs => exact givesIff_string? _
  rw [constant?]
  refine GivesIff.congr (hentries.bind <| htag.bind <| hnumber.bind <| hstring.bind <| .some _) ?_
  simp only [true_and, and_true]

theorem givesIff_localVar? {v : LocalVar} (hv : IsInt64 v.first ∧ IsInt64 v.last) :
    GivesIff (localVar? (localItem v)) (Utf8.isValid v.name = true) v := by
  have hentries : GivesIff (entries? (localItem v)) True _ := .of_eq_some rfl
  rw [localVar?]
  refine GivesIff.congr (hentries.bind <| (givesIff_string? v.name).bind <|
    (givesIff_int? hv.1).bind <| (givesIff_int? hv.2).bind <| .some _) ?_
  simp only [true_and, and_true]

theorem givesIff_upvalue? {u : Upvalue} (hu : IsInt64 u.index) :
    GivesIff (upvalue? (upvalueItem u)) (Utf8.isValid u.name = true) u := by
  have hentries : GivesIff (entries? (upvalueItem u)) True _ := .of_eq_some rfl
  rw [upvalue?]
  refine GivesIff.congr (hentries.bind <| (givesIff_string? u.name).bind <|
    (givesIff_int? hu).bind <| (givesIff_bool? u.inStack).bind <| .some _) ?_
  simp only [true_and, and_true]

/-- The entries of a function, put together from the right. -/
def functionEntries (f : DocumentFunction) (nested : List Item) : List Item :=
  entry 1 (.ofText f.path) ++ (entry 2 (.ofText f.source) ++ (entry 3 (.ofInt f.lineDefined) ++
    (entry 4 (.ofInt f.lastLineDefined) ++ (entry 5 (.ofByte f.numParams) ++
    (entry 6 (.ofByte f.isVararg) ++ (entry 7 (.ofByte f.maxStackSize) ++
    (listEntry 8 (f.code.map instructionItem) ++ (listEntry 9 (f.constants.map constantItem) ++
    (listEntry 10 nested ++ (listEntry 11 (f.lines.map .ofInt) ++
    (listEntry 12 (f.locals.map localItem) ++
    (listEntry 13 (f.upvalues.map upvalueItem) ++ []))))))))))))

theorem functionItem_eq (f : DocumentFunction) (nested : List Item) :
    functionItem f nested = .map (functionEntries f nested) := by
  simp only [functionItem, functionEntries, List.append_assoc, List.append_nil]

theorem keysAllowed_functionEntries (f : DocumentFunction) (nested : List Item) :
    keysAllowed (functionEntries f nested) = true := by
  simp only [functionEntries, keysAllowed_entry, keysAllowed_listEntry]
  rfl

/-- What each of the lists of a function is found under. -/
theorem lookup?_functionEntries (f : DocumentFunction) (nested : List Item) :
    ∀ p ∈ [(8, f.code.map instructionItem), (9, f.constants.map constantItem), (10, nested),
        (11, f.lines.map .ofInt), (12, f.locals.map localItem), (13, f.upvalues.map upvalueItem)],
      lookup? (.number p.1) (functionEntries f nested) =
        if p.2.isEmpty = false then some (.array p.2) else none := by
  simp only [List.forall_mem_cons]
  refine ⟨?_, ?_, ?_, ?_, ?_, ?_, nofun⟩
  all_goals
    simp (disch := decide) only [functionEntries, lookup?_entry, lookup?_listEntry, lookup?_nil,
      Nat.reduceEqDiff, false_and, true_and, reduceIte]

theorem givesIff_function? {f : DocumentFunction} (hf : f.Integers IsInt64) (nested : List Item) :
    GivesIff (function? (functionEntries f nested)) (f.Strings (Utf8.isValid · = true))
      (f.mapConstants (·.mapNumber Number.unsignedZero)) := by
  have hlookup := lookup?_functionEntries f nested
  simp only [List.forall_mem_cons] at hlookup
  obtain ⟨hcode, hconstants, -, hlines, hlocals, hupvalues, -⟩ := hlookup
  have hcode := givesIff_list hcode fun i hi => givesIff_instruction? (hf.code i hi)
  have hconstants := givesIff_list hconstants fun k _ => givesIff_constant? k
  have hlines := givesIff_list hlines fun v hv => givesIff_int? (hf.lines v hv)
  have hlocals := givesIff_list hlocals fun v hv => givesIff_localVar? (hf.locals v hv)
  have hupvalues := givesIff_list hupvalues fun u hu => givesIff_upvalue? (hf.upvalues u hu)
  rw [List.map_id'] at hcode hlines hlocals hupvalues
  rw [function?]
  refine GivesIff.congr ((givesIff_string? f.path).bind <| (givesIff_string? f.source).bind <|
    (givesIff_int? hf.lineDefined).bind <| (givesIff_int? hf.lastLineDefined).bind <|
    (givesIff_byte? f.numParams).bind <| (givesIff_byte? f.isVararg).bind <|
    (givesIff_byte? f.maxStackSize).bind <| hcode.bind <| hconstants.bind <| hlines.bind <|
    hlocals.bind <| hupvalues.bind <| .some _) ?_
  simp only [true_and, and_true, implies_true]
  exact ⟨fun ⟨h₁, h₂, h₃, h₄, h₅, h₆⟩ => ⟨h₁, h₂, h₃, h₄, h₅, h₆⟩,
    fun ⟨h₁, h₂, h₃, h₄, h₅, h₆⟩ => ⟨h₁, h₂, h₃, h₄, h₅, h₆⟩⟩

/-! ## Trees of functions -/

theorem treeItems_eq_map (ts : List (FunctionTree DocumentFunction)) :
    treeItems ts = ts.map treeItem := by
  induction ts with
  | nil => rfl
  | cons t ts ih => rw [treeItems, ih, List.map_cons]

theorem nestedIn?_functionEntries (f : DocumentFunction) (nested : List Item) :
    nestedIn? (functionEntries f nested) = places? nested := by
  have hlookup := lookup?_functionEntries f nested
  simp only [List.forall_mem_cons] at hlookup
  rw [nestedIn?_eq, nestedKey, hlookup.2.2.1]
  cases nested with
  | nil => rfl
  | cons item items =>
    rw [List.isEmpty_cons, if_pos rfl, Option.elim_some, trees?]

theorem tree?_functionItem (f : DocumentFunction) (nested : List Item) :
    tree? (functionItem f nested) = function? (functionEntries f nested) >>= fun g =>
      places? nested >>= fun ts => some (.node g ts) := by
  rw [functionItem_eq, tree?, if_pos (keysAllowed_functionEntries f nested),
    nestedIn?_functionEntries]
  cases function? (functionEntries f nested) with
  | none => rfl
  | some g => cases places? nested <;> rfl

/-- Places that all have a function are read one by one. -/
theorem places?_eq_mapM {items : List Item} (h : ∀ item ∈ items, item.isNull = false) :
    places? items = items.mapM tree? := by
  induction items with
  | nil => rw [places?, List.mapM_nil, Option.pure_def]
  | cons item items ih =>
    rw [List.forall_mem_cons] at h
    rw [places?, List.mapM_cons, h.1, if_neg Bool.false_ne_true, ih h.2]
    cases tree? item with
    | none => rfl
    | some t => cases items.mapM tree? <;> rfl

theorem isNull_functionItem (f : DocumentFunction) (nested : List Item) :
    (functionItem f nested).isNull = false := rfl

/-- The item of a tree is read as the tree, without the signs of zeros, and exactly when all of its
strings are valid. -/
theorem givesIff_tree? {t : FunctionTree DocumentFunction}
    (ht : t.Every fun f _ => f.Integers IsInt64) :
    GivesIff (tree? (treeItem t)) (t.Every fun f _ => f.Strings (Utf8.isValid · = true))
      (t.map (·.mapConstants (·.mapNumber Number.unsignedZero))) := by
  induction ht with
  | @node f nested here below ih =>
    have hnull : ∀ item ∈ nested.map treeItem, item.isNull = false := by
      intro item hitem
      obtain ⟨t, ht, rfl⟩ := List.mem_map.1 hitem
      cases below t ht with
      | node _ _ =>
        rw [treeItem]
        exact isNull_functionItem ..
    have hplaces := GivesIff.mapM ih
    rw [show (nested.mapM fun t => tree? (treeItem t)) = (nested.map treeItem).mapM tree? from
      List.mapM_map.symm, ← places?_eq_mapM hnull] at hplaces
    rw [treeItem, treeItems_eq_map, tree?_functionItem, FunctionTree.map_node]
    refine GivesIff.congr ((givesIff_function? here _).bind <| hplaces.bind <| .some _) ?_
    rw [and_true, FunctionTree.Every.node_iff]

theorem givesIff_main? {t : FunctionTree DocumentFunction}
    (ht : t.Every fun f _ => f.Integers IsInt64) :
    GivesIff (main? (treeItem t)) (t.Every fun f _ => f.Strings (Utf8.isValid · = true))
      (t.map (·.mapConstants (·.mapNumber Number.unsignedZero))) := by
  have hread := givesIff_tree? ht
  cases ht with
  | node _ _ =>
    rw [treeItem] at hread ⊢
    rwa [main?, isNull_functionItem, if_neg Bool.false_ne_true]

theorem digest?_bytes {digest : Bytes} (h : digest.length = digestLength) :
    digest? (.bytes [digest]) = some digest := by
  rw [show digest? (.bytes [digest]) = some (fit digestLength [digest].flatten) from rfl,
    List.flatten_singleton, fit, ← h, List.take_length, Nat.sub_self, List.replicate_zero,
    List.append_nil]

/-- The document with other constants. -/
def mapConstants (g : Constant → Constant) (d : Document) : Document :=
  { d with main := d.main.map (·.mapConstants g) }

/-- All text of the document is valid. -/
structure IsText (d : Document) : Prop where
  endianness : Utf8.isValid d.header.endianness = true
  main : d.main.Every fun f _ => f.Strings (Utf8.isValid · = true)

theorem givesIff_document? {d : Document} (hdigest : d.digest.length = digestLength)
    (hmain : d.main.Every fun f _ => f.Integers IsInt64) :
    GivesIff (document? d.toItem) d.IsText
      (d.mapConstants (·.mapNumber Number.unsignedZero)) := by
  have hentries : GivesIff (entries? d.toItem) True _ := .of_eq_some rfl
  have hdigest : GivesIff (digest? (.bytes [d.digest])) True d.digest :=
    .of_eq_some (digest?_bytes hdigest)
  rw [document?]
  refine GivesIff.congr (hentries.bind <| hdigest.bind <| (givesIff_header? d.header).bind <|
    (givesIff_main? hmain).bind <| .some _) ?_
  rw [true_and, true_and, and_true]
  exact ⟨fun ⟨h₁, h₂⟩ => ⟨h₁, h₂⟩, fun ⟨h₁, h₂⟩ => ⟨h₁, h₂⟩⟩

/-! ## The item of a document -/

/-- Entries that can be written: at most `n` items, which are keys and values in turn. -/
structure PlainEntries (n : Nat) (items : List Item) : Prop where
  length_le : items.length ≤ n
  even : 2 ∣ items.length
  plain : ∀ item ∈ items, item.Plain

namespace PlainEntries

variable {m n : Nat} {items : List Item}

theorem nil : PlainEntries 0 [] :=
  ⟨le_rfl, dvd_zero 2, nofun⟩

theorem pair {key : Item} (hkey : key.Plain) (hvalue : value.Plain) :
    PlainEntries 2 [key, value] :=
  ⟨le_rfl, dvd_rfl, by simp [hkey, hvalue]⟩

theorem append (hxs : PlainEntries m xs) (hitems : PlainEntries n items) :
    PlainEntries (m + n) (xs ++ items) where
  length_le := List.length_append ▸ Nat.add_le_add hxs.length_le hitems.length_le
  even := List.length_append ▸ Nat.dvd_add hxs.even hitems.even
  plain := List.forall_mem_append.2 ⟨hxs.plain, hitems.plain⟩

theorem first (hvalue : value.Plain) (hk : k < 2 ^ 64 := by decide) :
    PlainEntries 2 (entry k value) :=
  pair (.unsigned hk) hvalue

theorem entry (h : PlainEntries n items) (hvalue : value.Plain) (hk : k < 2 ^ 64 := by decide) :
    PlainEntries (n + 2) (items ++ entry k value) :=
  h.append (first hvalue hk)

theorem optional (h : PlainEntries n items) {omitted : Bool} (hvalue : value.Plain)
    (hk : k < 2 ^ 64 := by decide) :
    PlainEntries (n + 2) (items ++ if omitted then [] else Document.entry k value) := by
  cases omitted with
  | true => exact h.append ⟨Nat.zero_le 2, dvd_zero 2, nofun⟩
  | false => exact h.entry hvalue hk

theorem named (h : PlainEntries n items) {name : String} (hvalue : value.Plain)
    (hname : (utf8 name).length < 2 ^ 64 := by decide) :
    PlainEntries (n + 2) (items ++ namedEntry name value) :=
  h.append (pair (.text hname) hvalue)

theorem map (h : PlainEntries n items) (hn : n < 2 ^ 64 := by decide) : (Item.map items).Plain :=
  .map (h.length_le.trans_lt hn) h.even h.plain

end PlainEntries

theorem plain_ofInt {v : Int} (hv : IsInt64 v) : (Item.ofInt v).Plain := by
  obtain ⟨hlo, hhi⟩ := hv
  rw [Item.ofInt]
  split_ifs with hneg
  · exact .negative (by omega)
  · exact .unsigned (by omega)

theorem plain_ofByte (b : UInt8) : (Item.ofByte b).Plain :=
  .unsigned (b.toNat_lt.trans (by decide))

theorem plain_ofBool (b : Bool) : (Item.ofBool b).Plain :=
  .simple (by cases b <;> decide)

theorem plain_ofText {s : Bytes} (hs : IsLength s.length) : (Item.ofText s).Plain :=
  .text (hs.trans (by decide))

theorem plain_list {xs : List α} {toItem : α → Item} (hlength : IsLength xs.length)
    (h : ∀ x ∈ xs, (toItem x).Plain) : (Item.array (xs.map toItem)).Plain := by
  refine .array ?_ ?_
  · rw [List.length_map]
    exact hlength.trans (by decide)
  · intro item hitem
    obtain ⟨x, hx, rfl⟩ := List.mem_map.1 hitem
    exact h x hx

theorem plain_headerItem {h : DocumentHeader} (hh : IsLength h.endianness.length) :
    (headerItem h).Plain :=
  PlainEntries.first (plain_ofByte _) |>.entry (plain_ofText hh) |>.entry (plain_ofByte _)
    |>.entry (plain_ofByte _) |>.entry (plain_ofByte _) |>.entry (plain_ofByte _)
    |>.entry (plain_ofBool _) |>.map

theorem plain_instructionItem {i : DocumentInstruction}
    (hi : IsInt64 i.a ∧ IsInt64 i.b ∧ IsInt64 i.c ∧ IsInt64 i.bx)
    (hs : IsLength i.op.length ∧ IsLength i.text.length) : (instructionItem i).Plain :=
  PlainEntries.first (.unsigned (i.word.isLt.trans (by decide))) |>.entry (plain_ofText hs.1)
    |>.entry (plain_ofInt hi.1) |>.entry (plain_ofInt hi.2.1) |>.entry (plain_ofInt hi.2.2.1)
    |>.entry (plain_ofInt hi.2.2.2) |>.entry (plain_ofText hs.2) |>.map

theorem plain_constantItem {k : Constant} (hs : IsLength k.string.length) :
    (constantItem k).Plain :=
  PlainEntries.first (plain_ofByte _) |>.optional (.float _) |>.optional (plain_ofText hs) |>.map

theorem plain_localItem {v : LocalVar} (hv : IsInt64 v.first ∧ IsInt64 v.last)
    (hs : IsLength v.name.length) : (localItem v).Plain :=
  PlainEntries.nil.named (plain_ofInt hv.2) |>.named (plain_ofText hs)
    |>.named (plain_ofInt hv.1) |>.map

theorem plain_upvalueItem {u : Upvalue} (hu : IsInt64 u.index) (hs : IsLength u.name.length) :
    (upvalueItem u).Plain :=
  PlainEntries.nil.named (plain_ofText hs) |>.named (plain_ofInt hu)
    |>.named (plain_ofBool _) |>.map

theorem plain_functionItem {f : DocumentFunction} {nested : List Item}
    (hf : f.InMemory nested.length) (hnested : ∀ item ∈ nested, item.Plain) :
    (functionItem f nested).Plain := by
  obtain ⟨hi, hs, hc⟩ := hf
  have hcode := plain_list hc.code fun i h => plain_instructionItem (hi.code i h) (hs.code i h)
  have hconstants := plain_list hc.constants fun k h => plain_constantItem (hs.constants k h)
  have hnested : (Item.array nested).Plain := .array (hc.nested.trans (by decide)) hnested
  have hlines := plain_list hc.lines fun v h => plain_ofInt (hi.lines v h)
  have hlocals := plain_list hc.locals fun v h => plain_localItem (hi.locals v h) (hs.locals v h)
  have hupvalues :=
    plain_list hc.upvalues fun u h => plain_upvalueItem (hi.upvalues u h) (hs.upvalues u h)
  exact PlainEntries.first (plain_ofText hs.path) |>.entry (plain_ofText hs.source)
    |>.entry (plain_ofInt hi.lineDefined) |>.entry (plain_ofInt hi.lastLineDefined)
    |>.entry (plain_ofByte _) |>.entry (plain_ofByte _) |>.entry (plain_ofByte _)
    |>.optional hcode |>.optional hconstants |>.optional hnested |>.optional hlines
    |>.optional hlocals |>.optional hupvalues |>.map

theorem plain_treeItem {t : FunctionTree DocumentFunction}
    (ht : t.Every DocumentFunction.InMemory) : (treeItem t).Plain := by
  induction ht with
  | @node f nested here _ ih =>
    rw [treeItem, treeItems_eq_map]
    refine plain_functionItem ?_ ?_
    · rwa [List.length_map]
    · intro item hitem
      obtain ⟨t, ht, rfl⟩ := List.mem_map.1 hitem
      exact ih t ht

/-- The document can be held in memory. -/
structure InMemory (d : Document) : Prop where
  digest : IsLength d.digest.length
  endianness : IsLength d.header.endianness.length
  main : d.main.Every DocumentFunction.InMemory

theorem plain_toItem {d : Document} (hd : d.InMemory) : d.toItem.Plain :=
  PlainEntries.first (.bytes (hd.digest.trans (by decide)))
    |>.entry (plain_headerItem hd.endianness) |>.entry (plain_treeItem hd.main) |>.map

/-! ## Numbers that are none -/

theorem settled_array (items : List Item) :
    (Item.array items).settled = .array (items.map Item.settled) := by
  rw [Item.settled, Item.settledAll_eq_map]

theorem settled_map (items : List Item) :
    (Item.map items).settled = .map (items.map Item.settled) := by
  rw [Item.settled, Item.settledAll_eq_map]

theorem settled_ofInt (v : Int) : (Item.ofInt v).settled = .ofInt v := by
  rw [Item.ofInt]
  split_ifs <;> rfl

theorem settled_ofText (s : Bytes) : (Item.ofText s).settled = .ofText s := rfl

theorem map_settled_entry : (entry k value).map Item.settled = entry k value.settled := rfl

theorem map_settled_optional (omitted : Bool) :
    (if omitted then [] else entry k value).map Item.settled =
      if omitted then [] else entry k value.settled := by
  cases omitted <;> rfl

theorem map_settled_listEntry :
    (listEntry k xs).map Item.settled = listEntry k (xs.map Item.settled) := by
  rw [listEntry, map_settled_optional, settled_array, listEntry, List.isEmpty_map]

theorem map_settled_namedEntry (name : String) :
    (namedEntry name value).map Item.settled = namedEntry name value.settled := rfl

theorem settled_instructionItem (i : DocumentInstruction) :
    (instructionItem i).settled = instructionItem i := by
  simp only [instructionItem, settled_map, List.map_append, map_settled_entry, settled_ofInt,
    settled_ofText]
  rfl

theorem settled_constantItem (k : Constant) :
    (constantItem k).settled = constantItem (k.mapNumber Number.settled) := by
  simp only [constantItem, Constant.mapNumber, settled_map, List.map_append, map_settled_entry,
    map_settled_optional, settled_ofText, Number.isZero_settled]
  rfl

theorem settled_localItem (v : LocalVar) : (localItem v).settled = localItem v := by
  simp only [localItem, settled_map, List.map_append, map_settled_namedEntry, settled_ofInt,
    settled_ofText]

theorem settled_upvalueItem (u : Upvalue) : (upvalueItem u).settled = upvalueItem u := by
  simp only [upvalueItem, settled_map, List.map_append, map_settled_namedEntry, settled_ofInt,
    settled_ofText]
  rfl

theorem settled_functionItem (f : DocumentFunction) (nested : List Item) :
    (functionItem f nested).settled =
      functionItem (f.mapConstants (·.mapNumber Number.settled)) (nested.map Item.settled) := by
  simp only [functionItem, DocumentFunction.mapConstants, settled_map, List.map_append,
    map_settled_entry, map_settled_listEntry, settled_ofInt, settled_ofText, List.map_map,
    Function.comp_def, settled_instructionItem, settled_constantItem, settled_localItem,
    settled_upvalueItem]
  rfl

mutual

theorem settled_treeItem : (t : FunctionTree DocumentFunction) →
    (treeItem t).settled = treeItem (t.map (·.mapConstants (·.mapNumber Number.settled)))
  | .absent => rfl
  | .node f nested => by
    rw [treeItem, settled_functionItem, settled_treeItems nested, FunctionTree.map, treeItem]

theorem settled_treeItems : (ts : List (FunctionTree DocumentFunction)) →
    (treeItems ts).map Item.settled =
      treeItems (FunctionTree.mapAll (·.mapConstants (·.mapNumber Number.settled)) ts)
  | [] => rfl
  | t :: ts => by
    rw [treeItems, List.map_cons, settled_treeItem t, settled_treeItems ts, FunctionTree.mapAll,
      treeItems]

end

/-- Of a document only the numbers that are none change when it is written and read. -/
theorem settled_toItem (d : Document) :
    d.toItem.settled = (d.mapConstants (·.mapNumber Number.settled)).toItem := by
  rw [toItem, settled_map, toItem]
  simp only [List.map_append, map_settled_entry, settled_treeItem]
  rfl

/-! ## Documents -/

theorem strings_mapConstants_iff {P : Bytes → Prop} {g : Number → Number} {f : DocumentFunction} :
    (f.mapConstants (·.mapNumber g)).Strings P ↔ f.Strings P := by
  have hconstants : (∀ k ∈ f.constants.map (·.mapNumber g), P k.string) ↔
      ∀ k ∈ f.constants, P k.string := by
    simp only [List.forall_mem_map, Constant.mapNumber]
  exact ⟨fun h => ⟨h.path, h.source, h.code, hconstants.1 h.constants, h.locals, h.upvalues⟩,
    fun h => ⟨h.path, h.source, h.code, hconstants.2 h.constants, h.locals, h.upvalues⟩⟩

theorem isText_mapConstants_iff {g : Number → Number} {d : Document} (hd : d.InMemory) :
    (d.mapConstants (·.mapNumber g)).IsText ↔ d.IsText := by
  constructor
  · intro h
    exact ⟨h.endianness, (hd.main.of_map h.main).imp fun _ _ => strings_mapConstants_iff.1⟩
  · intro h
    exact ⟨h.endianness, h.main.map fun _ _ => strings_mapConstants_iff.2⟩

theorem mapConstants_mapConstants (g h : Number → Number) (d : Document) :
    (d.mapConstants (·.mapNumber g)).mapConstants (·.mapNumber h) =
      d.mapConstants (·.mapNumber (h ∘ g)) := by
  have hbody : (DocumentFunction.mapConstants (·.mapNumber h)) ∘
      (DocumentFunction.mapConstants (·.mapNumber g)) =
        DocumentFunction.mapConstants (·.mapNumber (h ∘ g)) := by
    funext f
    simp only [Function.comp_apply, DocumentFunction.mapConstants, List.map_map]
    rfl
  rw [mapConstants, mapConstants, FunctionTree.map_map, hbody, mapConstants]

theorem integers_mapConstants {P : Int → Prop} {f : DocumentFunction} (hf : f.Integers P)
    (g : Constant → Constant) : (f.mapConstants g).Integers P :=
  ⟨hf.lineDefined, hf.lastLineDefined, hf.code, hf.lines, hf.locals, hf.upvalues⟩

/-- The bytes of a document are read as the document, and exactly when all of its text is valid
and it is within the limits of the reader.  Zeros lose their sign, and what is not a number becomes
quiet. -/
theorem decode_encode_eq_ok_iff {d e : Document} (hd : d.InMemory)
    (hdigest : d.digest.length = digestLength) :
    decode d.encode = .ok e ↔ (d.toItem.Within maxLevels ∧ d.IsText) ∧
      e = d.mapConstants (·.mapNumber Number.imported) := by
  have hintegers : (d.mapConstants (·.mapNumber Number.settled)).main.Every
      fun f _ => f.Integers IsInt64 :=
    hd.main.map fun _ _ hf => integers_mapConstants hf.integers _
  have hread : GivesIff ((decode? d.encode) >>= document?)
      (d.toItem.Within maxLevels ∧ d.IsText) (d.mapConstants (·.mapNumber Number.imported)) := by
    have hdocument := givesIff_document? (d := d.mapConstants (·.mapNumber Number.settled))
      hdigest hintegers
    rw [← settled_toItem, mapConstants_mapConstants] at hdocument
    exact (plain_toItem hd).givesIff_decode?.bind (hdocument.congr (isText_mapConstants_iff hd))
  rw [← hread e, decode, Option.bind_eq_bind]
  cases (decode? d.encode).bind document? <;> simp

end Document

end LuaAssembly
