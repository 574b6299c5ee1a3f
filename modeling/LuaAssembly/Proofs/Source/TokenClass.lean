import Mathlib
import LuaAssembly.Chunk.Listing
import LuaAssembly.Proofs.Bytecode.Word
import LuaAssembly.Proofs.Bytes.Numeral
import LuaAssembly.Source.Statement

/-!
# What a token spells

The classes of tokens that stand for strings, names, integers, truth values, operands and
constants, given by rules on their texts.  The reader of each kind of argument accepts the tokens
of one class and gives what they stand for.
-/
namespace LuaAssembly

/-- The integers of 32 bits. -/
def IsInt32 (v : Int) : Prop :=
  -(2 ^ 31) ≤ v ∧ v < 2 ^ 31

instance (v : Int) : Decidable (IsInt32 v) :=
  inferInstanceAs (Decidable (_ ∧ _))

namespace Token

/-- A string literal that stands for `s`. -/
def IsString (t : Token) (s : Bytes) : Prop :=
  Literal.unquote t.literal = .ok s

/-- A name, bare or as a string literal. -/
inductive IsName (t : Token) : Bytes → Prop where
  | bare (h : t.kind ≠ .string) : IsName t t.literal
  | quoted {s : Bytes} (h : t.kind = .string) (hs : t.IsString s) : IsName t s

/-- An integer of 32 bits. -/
def IsInteger (t : Token) (v : Int) : Prop :=
  Numeral.IsDecimal t.literal v ∧ IsInt32 v

/-- A number from 0 to 255. -/
def IsByte (t : Token) (b : UInt8) : Prop :=
  t.IsInteger b.toNat

/-- A truth value. -/
def IsTruth (t : Token) (b : Bool) : Prop :=
  t.literal = if b then utf8 "true" else utf8 "false"

/-- A letter and an index. -/
def IsIndexed (letter : UInt8) (t : Token) (v : Int) : Prop :=
  ∃ rest, t.literal = letter :: rest ∧ Numeral.IsDecimal rest v ∧ IsInt32 v

/-- An operand, in the spelling that its format asks for. -/
def IsOperand (t : Token) (f : OperandFormat) (x : Operand) : Prop :=
  match f.spelling, x.constant with
  | .plain, _ | .signed, _ => t.IsInteger x.value
  | .register, _ | .either, false => t.IsIndexed 0x72 x.value
  | .constant, _ | .either, true => t.IsIndexed 0x6B x.value

/-- The value of a constant: a string literal or a number. -/
inductive IsConstant (t : Token) : Constant → Prop where
  | string {s : Bytes} (h : t.kind = .string) (hs : t.IsString s) : IsConstant t (.ofString s)
  | number {v : Number} (h : t.kind ≠ .string) (hv : Number.ofNumeral? t.literal = some v) :
    IsConstant t (.ofNumber v)

end Token

/-! ## Readers -/

/-- What an operand shows of the value that is stored for it. -/
def OperandFormat.shown (f : OperandFormat) (stored : Int) : Operand :=
  match f.spelling with
  | .plain | .register => ⟨stored, false⟩
  | .constant => ⟨stored, true⟩
  | .either =>
    if stored < Word.constantBit then ⟨stored, false⟩ else ⟨stored - Word.constantBit, true⟩
  | .signed => ⟨stored - Word.signedBias, false⟩

theorem Word.operand_eq_shown (w : Word) (f : OperandFormat) :
    w.operand f = f.shown (w.slot f.slot) := rfl

namespace Argument

variable {t : Token}

theorem string_eq_ok_iff {s : Bytes} : string t = .ok s ↔ t.IsString s := by
  rw [string, Token.IsString]
  cases Literal.unquote t.literal with
  | ok r => simp
  | error problem => simp

theorem name_eq_ok_iff {s : Bytes} : name t = .ok s ↔ t.IsName s := by
  rw [name]
  constructor
  · intro h
    split_ifs at h with hk
    · exact .quoted hk (string_eq_ok_iff.1 h)
    · cases h
      exact .bare hk
  · rintro (hk | ⟨hk, hs⟩)
    · rw [if_neg hk]
    · rw [if_pos hk]
      exact string_eq_ok_iff.2 hs

theorem integer_eq_ok_iff {v : Int} : integer t = .ok v ↔ t.IsInteger v := by
  have hread : t.IsInteger v ↔ Numeral.signed? 32 t.literal = some v := by
    rw [Numeral.signed?_eq_some_iff]
    rfl
  rw [hread, integer]
  cases Numeral.signed? 32 t.literal with
  | some u => simp
  | none => simp

theorem byte_eq_ok_iff {dir : Directive} {b : UInt8} : byte dir t = .ok b ↔ t.IsByte b := by
  have hlt := b.toNat_lt
  rw [Token.IsByte, ← integer_eq_ok_iff, byte]
  constructor
  · intro h
    cases hint : integer t with
    | error cause => simp [hint] at h
    | ok v =>
      simp only [hint] at h
      split_ifs at h with hv
      cases h
      rw [UInt8.toNat_ofNat', Nat.mod_eq_of_lt (by omega), Int.toNat_of_nonneg hv.1]
  · intro hint
    simp only [hint]
    rw [if_pos (by omega), Int.toNat_natCast, UInt8.ofNat_toNat]

theorem boolean_eq_ok_iff {b : Bool} : boolean t = .ok b ↔ t.IsTruth b := by
  have hne : utf8 "true" ≠ utf8 "false" := by decide
  rw [boolean, Token.IsTruth]
  by_cases htrue : t.literal = utf8 "true"
  · cases b <;> simp [htrue, hne]
  · by_cases hfalse : t.literal = utf8 "false"
    · cases b <;> simp [hfalse, hne.symm]
    · cases b <;> simp [htrue, hfalse]

theorem byteOrder_eq_ok_iff {o : ByteOrder} : byteOrder t = .ok o ↔ t.IsName o.name := by
  rw [← name_eq_ok_iff, byteOrder]
  cases name t with
  | error cause => simp
  | ok s =>
    have hname : ByteOrder.ofName? s = some o ↔ s = o.name := by
      constructor
      · intro h
        rw [ByteOrder.ofName?] at h
        split_ifs at h with h₁ h₂ <;> cases h <;> assumption
      · rintro rfl
        exact ByteOrder.ofName?_name o
    simp only [Except.ok.injEq, ← hname]
    cases ByteOrder.ofName? s with
    | none => simp
    | some o' => simp

theorem numberKind_eq_ok_iff {integral : Bool} :
    numberKind t = .ok integral ↔ t.IsName (Listing.numberKind integral) := by
  have hne : utf8 "integer" ≠ utf8 "float" := by decide
  rw [← name_eq_ok_iff, numberKind]
  cases name t with
  | error cause => simp
  | ok s =>
    simp only [Except.ok.injEq]
    by_cases hint : s = utf8 "integer"
    · cases integral <;> simp [hint, Listing.numberKind, hne]
    · by_cases hfloat : s = utf8 "float"
      · cases integral <;> simp [hfloat, Listing.numberKind, hne.symm]
      · cases integral <;> simp [hint, hfloat, Listing.numberKind]

/-! ### Operands -/

theorem indexed?_eq_some_iff {letter : UInt8} {v : Int} :
    indexed? letter t.literal = some v ↔ t.IsIndexed letter v := by
  have hread : ∀ rest, Numeral.signed? 32 rest = some v ↔ Numeral.IsDecimal rest v ∧ IsInt32 v :=
    fun rest => Numeral.signed?_eq_some_iff
  rw [Token.IsIndexed]
  cases t.literal with
  | nil => simp [indexed?]
  | cons b rest =>
    rw [indexed?]
    split_ifs with hb
    · simp [hb, hread]
    · simp [hb]

theorem inRange_eq_ok_iff {f : OperandFormat} {op : Opcode} {lo hi u v : Int} :
    inRange f op lo hi u = .ok v ↔ u = v ∧ lo ≤ v ∧ v ≤ hi := by
  rw [inRange]
  split_ifs with hu
  · constructor
    · rintro ⟨⟩
      exact ⟨rfl, hu⟩
    · rintro ⟨rfl, -⟩
      rfl
  · constructor
    · rintro ⟨⟩
    · rintro ⟨rfl, hv⟩
      exact absurd hv hu

/-- Values that are stored with a bias. -/
theorem inRange_add_eq_ok_iff {f : OperandFormat} {op : Opcode} {lo hi bias u v : Int} :
    (inRange f op lo hi u).map (· + bias) = .ok v ↔
      u = v - bias ∧ lo + bias ≤ v ∧ v ≤ hi + bias := by
  have hread : (inRange f op lo hi u).map (· + bias) = .ok v ↔
      inRange f op lo hi u = .ok (v - bias) := by
    cases inRange f op lo hi u with
    | error cause => simp [Except.map]
    | ok w => simp [Except.map, eq_sub_iff_add_eq]
  rw [hread, inRange_eq_ok_iff, le_sub_iff_add_le, sub_le_iff_le_add]

/-- A token that starts with the letter of constants is no register. -/
theorem register?_eq_none {v : Int} (h : t.IsIndexed 0x6B v) : register? t = none := by
  obtain ⟨rest, hrest, -⟩ := h
  rw [register?, hrest]
  rfl

theorem operand_either_eq_ok_iff {op : Opcode} {slot : Slot} (hmax : slot.field.max = 511)
    {v : Int} : operand op ⟨slot, .either⟩ t = .ok v ↔
      t.IsOperand ⟨slot, .either⟩ (OperandFormat.shown ⟨slot, .either⟩ v) ∧
        0 ≤ v ∧ v ≤ slot.field.max := by
  have hbit : Word.constantBit = 256 := by decide
  have hindex : Word.maxIndex = 255 := by decide
  simp only [operand, Token.IsOperand, OperandFormat.shown, hmax]
  constructor
  · intro h
    split at h
    · rename_i u _ hregister
      obtain ⟨rfl, hu⟩ := inRange_eq_ok_iff.1 h
      rw [if_pos (by omega)]
      exact ⟨indexed?_eq_some_iff.1 hregister, by omega⟩
    · rename_i u _ hconstant
      obtain ⟨rfl, hu⟩ := inRange_add_eq_ok_iff.1 h
      rw [if_neg (by omega)]
      exact ⟨indexed?_eq_some_iff.1 hconstant, by omega⟩
    · cases h
  · rintro ⟨h, hv⟩
    by_cases hlt : v < Word.constantBit
    · rw [if_pos hlt] at h
      have hregister : register? t = some v := indexed?_eq_some_iff.2 h
      simp only [hregister]
      exact inRange_eq_ok_iff.2 ⟨rfl, by omega⟩
    · rw [if_neg hlt] at h
      have hconstant : constant? t = some (v - Word.constantBit) := indexed?_eq_some_iff.2 h
      simp only [register?_eq_none h, hconstant]
      exact inRange_add_eq_ok_iff.2 ⟨rfl, by omega⟩

/-- The operands of each spelling that are accepted: the shown value is spelled as asked for, and
the stored value fits the slot. -/
theorem operand_eq_ok_iff {op : Opcode} {f : OperandFormat} (hf : f ∈ OperandFormat.all)
    {v : Int} : operand op f t = .ok v ↔
      t.IsOperand f (f.shown v) ∧ 0 ≤ v ∧ v ≤ f.slot.field.max := by
  obtain ⟨slot, spelling⟩ := f
  cases spelling with
  | plain =>
    simp only [operand, Token.IsOperand, OperandFormat.shown, ← integer_eq_ok_iff]
    cases integer t with
    | error cause => simp
    | ok u => simp [inRange_eq_ok_iff]
  | register =>
    have hread : t.IsIndexed 0x72 v ↔ register? t = some v := indexed?_eq_some_iff.symm
    simp only [operand, Token.IsOperand, OperandFormat.shown, hread]
    cases register? t with
    | none => simp
    | some u => simp [inRange_eq_ok_iff]
  | constant =>
    have hread : t.IsIndexed 0x6B v ↔ constant? t = some v := indexed?_eq_some_iff.symm
    simp only [operand, Token.IsOperand, OperandFormat.shown, hread]
    cases constant? t with
    | none => simp
    | some u => simp [inRange_eq_ok_iff]
  | either => exact operand_either_eq_ok_iff (OperandFormat.max_of_either hf)
  | signed =>
    have hlo : Word.signedRange.1 + Word.signedBias = 0 := by decide
    have hhi : Word.signedRange.2 + Word.signedBias = slot.field.max := by
      rw [OperandFormat.max_of_signed hf]
      decide
    simp only [operand, Token.IsOperand, OperandFormat.shown, ← integer_eq_ok_iff]
    cases integer t with
    | error cause => simp
    | ok u => simp only [inRange_add_eq_ok_iff, hlo, hhi, Except.ok.injEq]

end Argument

end LuaAssembly
