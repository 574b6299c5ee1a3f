import Mathlib
import LuaAssembly.Proofs.Number.Text
import LuaAssembly.Proofs.Source.Describing
import LuaAssembly.Proofs.Source.TokenClass

/-!
# Written arguments are read back

`Statement.Written` says how the listing writes each statement: the directive, and the class and
text of every argument.  The main statement is that the arguments, read after the directive, give
the statement again if its integers are integers of 32 bits, and that they are refused if not.
-/
namespace LuaAssembly

/-! ## Single arguments -/

namespace Argument

variable {t : Token}

theorem integer_ofInt {v : Int} (hv : IsInt32 v) (ht : t.literal = Numeral.ofInt v) :
    integer t = .ok v := by
  rw [integer, ht, Numeral.signed?_ofInt hv.1 hv.2]

theorem integer_ofInt_eq_error {v : Int} (hv : ¬ IsInt32 v) (ht : t.literal = Numeral.ofInt v) :
    ∃ cause, integer t = .error cause := by
  have hnone : Numeral.signed? 32 (Numeral.ofInt v) = none := by
    rw [Numeral.signed?, Numeral.integer?_ofInt]
    exact if_neg hv
  rw [integer, ht, hnone]
  exact ⟨_, rfl⟩

theorem byte_byteText (dir : Directive) {b : UInt8} (ht : t.literal = Listing.byteText b) :
    byte dir t = .ok b := by
  have hb := b.toNat_lt
  have hint : integer t = .ok (b.toNat : Int) := integer_ofInt ⟨by omega, by omega⟩ ht
  rw [byte, hint]
  simp only
  rw [if_pos (by omega), Int.toNat_natCast, UInt8.ofNat_toNat]

theorem string_quote {s : Bytes} (ht : t.literal = Literal.quote s) : string t = .ok s := by
  rw [string, ht, Literal.unquote_quote]

theorem name_quote {s : Bytes} (hk : t.kind = .string) (ht : t.literal = Literal.quote s) :
    name t = .ok s := by
  rw [name, if_pos hk, string_quote ht]

theorem name_word {w : Bytes} (hk : t.kind = .word) (ht : t.literal = w) : name t = .ok w := by
  rw [name, if_neg (by rw [hk]; decide), ht]

theorem boolean_truth {b : Bool} (ht : t.literal = Listing.truth b) : boolean t = .ok b := by
  rw [boolean, ht]
  cases b <;> decide

theorem byteOrder_name {o : ByteOrder} (hk : t.kind = .word) (ht : t.literal = o.name) :
    byteOrder t = .ok o := by
  simp only [byteOrder, name_word hk ht, ByteOrder.ofName?_name]

theorem numberKind_text {integral : Bool} (hk : t.kind = .word)
    (ht : t.literal = Listing.numberKind integral) : numberKind t = .ok integral := by
  simp only [numberKind, name_word hk ht]
  cases integral <;> decide

end Argument

/-! ## Texts that are words -/

theorem isWord_byteText (b : UInt8) : IsWord (Listing.byteText b) :=
  isWord_ofNat _

theorem isWord_truth (b : Bool) : IsWord (Listing.truth b) := by
  cases b <;> exact isWord_utf8 (by decide +kernel)

theorem isWord_numberKind (integral : Bool) : IsWord (Listing.numberKind integral) := by
  cases integral <;> exact isWord_utf8 (by decide +kernel)

theorem isWord_byteOrder (o : ByteOrder) : IsWord o.name := by
  cases o <;> exact isWord_utf8 (by decide +kernel)

theorem wordBytes_of_isNumeralByte {bs : Bytes} (h : ∀ b ∈ bs, Number.IsNumeralByte b) :
    WordBytes bs := by
  intro b hb
  rcases h b hb with hdigit | hmem
  · have hdigits : Numeral.Digits [b] := by simpa [Numeral.Digits] using hdigit
    exact wordBytes_of_digits hdigits b (by simp)
  · clear hb
    revert b
    decide +kernel

/-- A numeral behind the sign that a number is written with. -/
theorem isWord_signed (negative : Bool) {b : UInt8} {rest : Bytes} (hb : Bytes.isDigit b)
    (hrest : ∀ c ∈ rest, Number.IsNumeralByte c) :
    IsWord ((if negative then utf8 "-" else []) ++ b :: rest) := by
  have hbytes : WordBytes (b :: rest) :=
    wordBytes_of_isNumeralByte (List.forall_mem_cons.2 ⟨.inl hb, hrest⟩)
  cases negative with
  | true => exact (isWord_utf8 (by decide +kernel)).append hbytes
  | false =>
    refine ⟨List.cons_ne_nil _ _, ?_, hbytes⟩
    rintro ⟨⟩
    exact absurd hb (by decide)

theorem isWord_number (v : Number) : IsWord v.text := by
  rw [Number.text]
  by_cases hnan : v.isNaN
  · rw [if_pos hnan]
    exact isWord_utf8 (by decide +kernel)
  rw [if_neg hnan]
  by_cases hinf : v.isInfinite
  · rw [if_pos hinf]
    cases v.isNegative <;> exact isWord_utf8 (by decide +kernel)
  rw [if_neg hinf]
  by_cases hzero : v.isZero
  · rw [if_pos hzero, show utf8 "0" = [0x30] by decide]
    exact isWord_signed _ (by decide) (by simp)
  · rw [if_neg hzero]
    obtain ⟨b, rest, heq, hb, hrest⟩ := Number.layOut_head Number.listingLayout v.shortest
    rw [heq]
    exact isWord_signed _ hb hrest

/-! ## Statements -/

namespace Statement

/-- How a statement is written: its directive, and the class and text of each argument. -/
inductive Written : Directive → List (TokenKind × Bytes) → Statement → Prop where
  | format (b : UInt8) : Written .format [(.word, Listing.byteText b)] (.format b)
  | endianness (o : ByteOrder) : Written .endianness [(.word, o.name)] (.endianness o)
  | intSize (b : UInt8) : Written .intSize [(.word, Listing.byteText b)] (.intSize b)
  | sizeTSize (b : UInt8) : Written .sizeTSize [(.word, Listing.byteText b)] (.sizeTSize b)
  | instructionSize (b : UInt8) :
    Written .instructionSize [(.word, Listing.byteText b)] (.instructionSize b)
  | numberFormat (integral : Bool) (b : UInt8) :
    Written .numberFormat [(.word, Listing.numberKind integral), (.word, Listing.byteText b)]
      (.numberFormat integral b)
  | source (s : Bytes) : Written .source [(.string, Literal.quote s)] (.source s)
  | lineDefined (v : Int) :
    Written .lineDefined [(.word, Numeral.ofInt v)] (.lineDefined v)
  | lastLineDefined (v : Int) :
    Written .lastLineDefined [(.word, Numeral.ofInt v)] (.lastLineDefined v)
  | numParams (b : UInt8) : Written .numParams [(.word, Listing.byteText b)] (.numParams b)
  | isVararg (b : UInt8) : Written .isVararg [(.word, Listing.byteText b)] (.isVararg b)
  | maxStackSize (b : UInt8) :
    Written .maxStackSize [(.word, Listing.byteText b)] (.maxStackSize b)
  | number {label : Bytes} (hlabel : IsWord label) (v : Number) :
    Written .constant [(.word, label), (.word, v.text)] (.constant (.ofNumber v.reread))
  | string {label : Bytes} (hlabel : IsWord label) (s : Bytes) :
    Written .constant [(.word, label), (.string, Literal.quote s)] (.constant (.ofString s))
  | line (v : Int) : Written .line [(.word, Numeral.ofInt v)] (.line v)
  | localVar (x : LocalVar) :
    Written .localVar
      [(.string, Literal.quote x.name), (.word, Numeral.ofInt x.first),
        (.word, Numeral.ofInt x.last)] (.localVar x)
  | upvalue (x : Upvalue) :
    Written .upvalue
      [(.string, Literal.quote x.name), (.word, Numeral.ofInt x.index),
        (.word, Listing.truth x.inStack)] (.upvalue x)

/-- The integers of the statement are integers of 32 bits. -/
def InRange : Statement → Prop
  | .lineDefined v | .lastLineDefined v | .line v => IsInt32 v
  | .localVar x => IsInt32 x.first ∧ IsInt32 x.last
  | .upvalue x => IsInt32 x.index
  | _ => True

variable {dir : Directive} {args : List (TokenKind × Bytes)} {st : Statement}

theorem Written.isArgument (h : Written dir args st) : ∀ s ∈ args, IsArgument s := by
  cases h <;>
    simp only [List.forall_mem_cons, List.not_mem_nil, false_implies, implies_true, and_true]
  case numberFormat => exact ⟨.word (isWord_numberKind _), .word (isWord_byteText _)⟩
  case endianness => exact .word (isWord_byteOrder _)
  case source => exact .quote _
  case lineDefined => exact .word (isWord_ofInt _)
  case lastLineDefined => exact .word (isWord_ofInt _)
  case number hlabel v => exact ⟨.word hlabel, .word (isWord_number _)⟩
  case string hlabel s => exact ⟨.word hlabel, .quote _⟩
  case line => exact .word (isWord_ofInt _)
  case localVar => exact ⟨.quote _, .word (isWord_ofInt _), .word (isWord_ofInt _)⟩
  case upvalue => exact ⟨.quote _, .word (isWord_ofInt _), .word (isWord_truth _)⟩
  all_goals exact .word (isWord_byteText _)

theorem gives_constantValue_number (v : Number) :
    Head.constantValue.Gives (· = .ofNumber v.reread) [(.word, v.text)] := by
  intro t ht
  obtain ⟨hk, hl⟩ := Prod.mk.inj ht
  simp only [hk, hl, Number.ofNumeral?_text, reduceCtorEq, if_false]
  rfl

theorem gives_constantValue_string (s : Bytes) :
    Head.constantValue.Gives (· = .ofString s) [(.string, Literal.quote s)] := by
  intro t ht
  obtain ⟨hk, hl⟩ := Prod.mk.inj ht
  simp only [hk, Argument.string_quote hl, if_true]
  rfl

open Argument Reading in
/-- The arguments, read after the directive, give the statement. -/
theorem Written.gives (h : Written dir args st) (hst : st.InRange) :
    (Head.directiveArguments dir).Gives (· = st) args := by
  cases h with
  | format b => exact gives_argument_bind (fun t _ ht => byte_byteText _ ht) rfl
  | endianness o => exact gives_argument_bind (fun t hk ht => byteOrder_name hk ht) rfl
  | intSize b => exact gives_argument_bind (fun t _ ht => byte_byteText _ ht) rfl
  | sizeTSize b => exact gives_argument_bind (fun t _ ht => byte_byteText _ ht) rfl
  | instructionSize b => exact gives_argument_bind (fun t _ ht => byte_byteText _ ht) rfl
  | numberFormat integral b =>
    exact gives_argument_bind (fun t hk ht => numberKind_text hk ht) <|
      gives_argument_bind (fun t _ ht => byte_byteText _ ht) rfl
  | source s => exact gives_argument_bind (fun t _ ht => string_quote ht) rfl
  | lineDefined v => exact gives_argument_bind (fun t _ ht => integer_ofInt hst ht) rfl
  | lastLineDefined v => exact gives_argument_bind (fun t _ ht => integer_ofInt hst ht) rfl
  | numParams b => exact gives_argument_bind (fun t _ ht => byte_byteText _ ht) rfl
  | isVararg b => exact gives_argument_bind (fun t _ ht => byte_byteText _ ht) rfl
  | maxStackSize b => exact gives_argument_bind (fun t _ ht => byte_byteText _ ht) rfl
  | number hlabel v =>
    exact gives_argument_bind (fun t hk ht => name_word hk ht) <|
      (gives_constantValue_number v).andThen fun k hk => congrArg Statement.constant hk
  | string hlabel s =>
    exact gives_argument_bind (fun t hk ht => name_word hk ht) <|
      (gives_constantValue_string s).andThen fun k hk => congrArg Statement.constant hk
  | line v => exact gives_argument_bind (fun t _ ht => integer_ofInt hst ht) rfl
  | localVar x =>
    exact gives_argument_bind (fun t _ ht => string_quote ht) <|
      gives_argument_bind (fun t _ ht => integer_ofInt hst.1 ht) <|
      gives_argument_bind (fun t _ ht => integer_ofInt hst.2 ht) rfl
  | upvalue x =>
    exact gives_argument_bind (fun t hk ht => name_quote hk ht) <|
      gives_argument_bind (fun t _ ht => integer_ofInt hst ht) <|
      gives_argument_bind (fun t _ ht => boolean_truth ht) rfl

open Argument Reading in
/-- The arguments are refused if one of them is an integer of more than 32 bits. -/
theorem Written.fails (h : Written dir args st) (hst : ¬ st.InRange) :
    (Head.directiveArguments dir).Fails args := by
  cases h with
  | lineDefined v => exact fails_argument_bind _ _ fun t ht => integer_ofInt_eq_error hst ht
  | lastLineDefined v => exact fails_argument_bind _ _ fun t ht => integer_ofInt_eq_error hst ht
  | line v => exact fails_argument_bind _ _ fun t ht => integer_ofInt_eq_error hst ht
  | localVar x =>
    refine Fails.argument_bind ?_ fun t _ ht => string_quote ht
    by_cases hfirst : IsInt32 x.first
    · have hlast : ¬ IsInt32 x.last := fun hlast => hst ⟨hfirst, hlast⟩
      refine Fails.argument_bind ?_ fun t _ ht => integer_ofInt hfirst ht
      exact fails_argument_bind _ _ fun t ht => integer_ofInt_eq_error hlast ht
    · exact fails_argument_bind _ _ fun t ht => integer_ofInt_eq_error hfirst ht
  | upvalue x =>
    refine Fails.argument_bind ?_ fun t hk ht => name_quote hk ht
    exact fails_argument_bind _ _ fun t ht => integer_ofInt_eq_error hst ht
  -- The other statements have no integers.
  | _ => exact absurd trivial hst

end Statement

end LuaAssembly
