import Mathlib
import LuaAssembly.Proofs.Source.Parsed

/-!
# The grammar of statements

`Phrase ts s` says that the tokens `ts` are the statement `s`: what they spell is given by rules
on the texts of the tokens, with no reference to the readers.  The main statement is that a
reader, fed with the tokens behind the head, completes the statement exactly when head and tokens
are such a phrase.
-/
namespace LuaAssembly

/-! ## Tokens that complete a reading -/

namespace Reading

variable {α β : Type}

/-- The tokens, all of them, complete the reading with the value. -/
def Completes : Reading α → List Token → α → Prop
  | .done a, [], b => a = b
  | .next resume, t :: ts, b => (resume t).Completes ts b
  | _, _, _ => False

@[simp] theorem completes_done {a b : α} {ts : List Token} :
    (done a).Completes ts b ↔ ts = [] ∧ a = b := by
  cases ts <;> simp [Completes]

@[simp] theorem not_completes_fail {e : Failure} {ts : List Token} {b : α} :
    ¬(fail e).Completes ts b := by
  cases ts <;> simp [Completes]

@[simp] theorem completes_next {resume : Token → Reading α} {ts : List Token} {b : α} :
    (next resume).Completes ts b ↔ ∃ t rest, ts = t :: rest ∧ (resume t).Completes rest b := by
  cases ts <;> simp [Completes]

theorem completes_andThen {r : Reading α} {f : α → Reading β} {ts : List Token} {b : β} :
    (r.andThen f).Completes ts b ↔
      ∃ a us vs, ts = us ++ vs ∧ r.Completes us a ∧ (f a).Completes vs b := by
  induction r generalizing ts with
  | done a => simp
  | fail e => simp
  | next resume ih =>
    simp only [andThen_next, completes_next, ih]
    constructor
    · rintro ⟨t, _, rfl, a, us, vs, rfl, hus, hvs⟩
      exact ⟨a, t :: us, vs, rfl, ⟨t, us, rfl, hus⟩, hvs⟩
    · rintro ⟨a, _, vs, rfl, ⟨t, us, rfl, hus⟩, hvs⟩
      exact ⟨t, us ++ vs, rfl, a, us, vs, rfl, hus, hvs⟩

theorem completes_argument {f : Token → Except Cause α} {ts : List Token} {a : α} :
    (argument f).Completes ts a ↔ ∃ t, ts = [t] ∧ f t = .ok a := by
  rw [argument, completes_next]
  refine ⟨?_, ?_⟩
  · rintro ⟨t, rest, rfl, h⟩
    cases ht : f t with
    | error cause => simp [ht, Reading.error] at h
    | ok b =>
      obtain ⟨rfl, rfl⟩ : rest = [] ∧ b = a := by simpa [ht] using h
      exact ⟨t, rfl, ht⟩
  · rintro ⟨t, rfl, ht⟩
    exact ⟨t, [], rfl, by simp [ht]⟩

theorem completes_argument_bind {f : Token → Except Cause α} {k : α → Reading β}
    {ts : List Token} {b : β} :
    (argument f >>= k).Completes ts b ↔
      ∃ t rest a, ts = t :: rest ∧ f t = .ok a ∧ (k a).Completes rest b := by
  show ((argument f).andThen k).Completes ts b ↔ _
  simp only [completes_andThen, completes_argument]
  constructor
  · rintro ⟨a, _, rest, rfl, ⟨t, rfl, ht⟩, hrest⟩
    exact ⟨t, rest, a, rfl, ht, hrest⟩
  · rintro ⟨t, rest, a, rfl, ht, hrest⟩
    exact ⟨a, [t], rest, rfl, ⟨t, rfl, ht⟩, hrest⟩

@[simp] theorem completes_pure {a b : α} {ts : List Token} :
    (pure a : Reading α).Completes ts b ↔ ts = [] ∧ a = b :=
  completes_done

theorem Ensures.of_completes {P : α → Prop} {r : Reading α} (h : r.Ensures P) {ts : List Token}
    {a : α} (hts : r.Completes ts a) : P a := by
  induction r generalizing ts with
  | done b =>
    obtain ⟨-, rfl⟩ := completes_done.1 hts
    exact h
  | fail e => exact absurd hts not_completes_fail
  | next resume ih =>
    obtain ⟨t, rest, rfl, hrest⟩ := completes_next.1 hts
    exact ih t (h t) hrest

end Reading

/-! ## Phrases -/

/-- The arguments of each directive, and the statement that they make. -/
inductive Clause : Directive → List Token → Statement → Prop where
  | format {t : Token} {b : UInt8} (ht : t.IsByte b) : Clause .format [t] (.format b)
  | endianness {t : Token} {o : ByteOrder} (ht : t.IsName o.name) :
    Clause .endianness [t] (.endianness o)
  | intSize {t : Token} {b : UInt8} (ht : t.IsByte b) : Clause .intSize [t] (.intSize b)
  | sizeTSize {t : Token} {b : UInt8} (ht : t.IsByte b) : Clause .sizeTSize [t] (.sizeTSize b)
  | instructionSize {t : Token} {b : UInt8} (ht : t.IsByte b) :
    Clause .instructionSize [t] (.instructionSize b)
  | numberFormat {t u : Token} {integral : Bool} {b : UInt8}
    (ht : t.IsName (Listing.numberKind integral)) (hu : u.IsByte b) :
    Clause .numberFormat [t, u] (.numberFormat integral b)
  | function {t : Token} {name : Bytes} (ht : t.IsName name) :
    Clause .function [t] (.function name t.pos)
  | source {t : Token} {s : Bytes} (ht : t.IsString s) : Clause .source [t] (.source s)
  | lineDefined {t : Token} {v : Int} (ht : t.IsInteger v) :
    Clause .lineDefined [t] (.lineDefined v)
  | lastLineDefined {t : Token} {v : Int} (ht : t.IsInteger v) :
    Clause .lastLineDefined [t] (.lastLineDefined v)
  | numParams {t : Token} {b : UInt8} (ht : t.IsByte b) : Clause .numParams [t] (.numParams b)
  | isVararg {t : Token} {b : UInt8} (ht : t.IsByte b) : Clause .isVararg [t] (.isVararg b)
  | maxStackSize {t : Token} {b : UInt8} (ht : t.IsByte b) :
    Clause .maxStackSize [t] (.maxStackSize b)
  | constant {t u : Token} {label : Bytes} {k : Constant} (ht : t.IsName label)
    (hu : u.IsConstant k) : Clause .constant [t, u] (.constant k)
  | line {t : Token} {v : Int} (ht : t.IsInteger v) : Clause .line [t] (.line v)
  | localVar {t u v : Token} {name : Bytes} {first last : Int} (ht : t.IsString name)
    (hu : u.IsInteger first) (hv : v.IsInteger last) :
    Clause .localVar [t, u, v] (.localVar ⟨name, first, last⟩)
  | upvalue {t u v : Token} {name : Bytes} {index : Int} {inStack : Bool} (ht : t.IsName name)
    (hu : u.IsInteger index) (hv : v.IsTruth inStack) :
    Clause .upvalue [t, u, v] (.upvalue ⟨name, index, inStack⟩)

/-- The tokens of a whole statement.  The operands of an instruction are those that its word
shows. -/
inductive Phrase : List Token → Statement → Prop where
  | directive {t : Token} {args : List Token} {dir : Directive} {s : Statement}
    (ht : t.literal = dir.token) (hargs : Clause dir args s) : Phrase (t :: args) s
  | instruction {t : Token} {args : List Token} {op : Opcode} {w : Word} (hk : t.kind = .word)
    (ht : Opcode.foldCase t.literal = op.mnemonic) (hw : w.IsInstructionOf op)
    (hargs : List.Forall₂ (fun f a => a.IsOperand f (w.operand f)) op.operands args) :
    Phrase (t :: args) (.instruction w)

namespace Head

open Reading Argument

theorem completes_constantValue {ts : List Token} {k : Constant} :
    constantValue.Completes ts k ↔ ∃ t, ts = [t] ∧ t.IsConstant k := by
  rw [constantValue, completes_next]
  constructor
  · rintro ⟨t, rest, rfl, h⟩
    split_ifs at h with hk
    · cases hs : string t with
      | error cause => simp [hs, Reading.error] at h
      | ok s =>
        obtain ⟨rfl, rfl⟩ : rest = [] ∧ Constant.ofString s = k := by simpa [hs] using h
        exact ⟨t, rfl, .string hk (string_eq_ok_iff.1 hs)⟩
    · cases hv : Number.ofNumeral? t.literal with
      | none => simp [hv] at h
      | some v =>
        obtain ⟨rfl, rfl⟩ : rest = [] ∧ Constant.ofNumber v = k := by simpa [hv] using h
        exact ⟨t, rfl, .number hk hv⟩
  · rintro ⟨t, rfl, hk, hs⟩
    · exact ⟨t, [], rfl, by simp [hk, string_eq_ok_iff.2 hs]⟩
    · rename_i v hk hv
      exact ⟨t, [], rfl, by simp [hk, hv]⟩

/-- A statement with one argument. -/
theorem completes_single {α : Type} {f : Token → Except Cause α} {P : Token → α → Prop}
    (hf : ∀ {t a}, f t = .ok a ↔ P t a) {make : α → Statement} {ts : List Token} {s : Statement} :
    (do return make (← .argument f) : Reading Statement).Completes ts s ↔
      ∃ t a, ts = [t] ∧ P t a ∧ make a = s := by
  rw [completes_argument_bind]
  simp only [completes_pure, hf]
  constructor
  · rintro ⟨t, _, a, rfl, ht, rfl, rfl⟩
    exact ⟨t, a, rfl, ht, rfl⟩
  · rintro ⟨t, a, rfl, ht, rfl⟩
    exact ⟨t, [], a, rfl, ht, rfl, rfl⟩

theorem clause_of_completes {dir : Directive} {ts : List Token} {s : Statement}
    (h : (directiveArguments dir).Completes ts s) : Clause dir ts s := by
  cases dir with
  | format =>
    obtain ⟨t, b, rfl, ht, rfl⟩ := (completes_single byte_eq_ok_iff).1 h
    exact .format ht
  | endianness =>
    obtain ⟨t, o, rfl, ht, rfl⟩ := (completes_single byteOrder_eq_ok_iff).1 h
    exact .endianness ht
  | intSize =>
    obtain ⟨t, b, rfl, ht, rfl⟩ := (completes_single byte_eq_ok_iff).1 h
    exact .intSize ht
  | sizeTSize =>
    obtain ⟨t, b, rfl, ht, rfl⟩ := (completes_single byte_eq_ok_iff).1 h
    exact .sizeTSize ht
  | instructionSize =>
    obtain ⟨t, b, rfl, ht, rfl⟩ := (completes_single byte_eq_ok_iff).1 h
    exact .instructionSize ht
  | numberFormat =>
    obtain ⟨t, _, integral, rfl, ht, h⟩ := completes_argument_bind.1 h
    obtain ⟨u, b, rfl, hu, rfl⟩ := (completes_single byte_eq_ok_iff).1 h
    exact .numberFormat (numberKind_eq_ok_iff.1 ht) hu
  | function =>
    obtain ⟨t, rfl, ht⟩ := completes_argument.1 h
    cases hname : name t with
    | error cause => simp [hname, Except.map] at ht
    | ok n =>
      obtain rfl : Statement.function n t.pos = s := by simpa [hname, Except.map] using ht
      exact .function (name_eq_ok_iff.1 hname)
  | source =>
    obtain ⟨t, r, rfl, ht, rfl⟩ := (completes_single string_eq_ok_iff).1 h
    exact .source ht
  | lineDefined =>
    obtain ⟨t, v, rfl, ht, rfl⟩ := (completes_single integer_eq_ok_iff).1 h
    exact .lineDefined ht
  | lastLineDefined =>
    obtain ⟨t, v, rfl, ht, rfl⟩ := (completes_single integer_eq_ok_iff).1 h
    exact .lastLineDefined ht
  | numParams =>
    obtain ⟨t, b, rfl, ht, rfl⟩ := (completes_single byte_eq_ok_iff).1 h
    exact .numParams ht
  | isVararg =>
    obtain ⟨t, b, rfl, ht, rfl⟩ := (completes_single byte_eq_ok_iff).1 h
    exact .isVararg ht
  | maxStackSize =>
    obtain ⟨t, b, rfl, ht, rfl⟩ := (completes_single byte_eq_ok_iff).1 h
    exact .maxStackSize ht
  | constant =>
    obtain ⟨t, rest, label, rfl, ht, h⟩ := completes_argument_bind.1 h
    obtain ⟨k, us, vs, rfl, hk, hdone⟩ := completes_andThen.1 h
    obtain ⟨u, rfl, hu⟩ := completes_constantValue.1 hk
    obtain ⟨rfl, rfl⟩ := completes_done.1 hdone
    exact .constant (name_eq_ok_iff.1 ht) hu
  | line =>
    obtain ⟨t, v, rfl, ht, rfl⟩ := (completes_single integer_eq_ok_iff).1 h
    exact .line ht
  | localVar =>
    obtain ⟨t, _, r, rfl, ht, h⟩ := completes_argument_bind.1 h
    obtain ⟨u, _, first, rfl, hu, h⟩ := completes_argument_bind.1 h
    obtain ⟨v, last, rfl, hv, rfl⟩ := (completes_single integer_eq_ok_iff).1 h
    exact .localVar (string_eq_ok_iff.1 ht) (integer_eq_ok_iff.1 hu) hv
  | upvalue =>
    obtain ⟨t, _, r, rfl, ht, h⟩ := completes_argument_bind.1 h
    obtain ⟨u, _, index, rfl, hu, h⟩ := completes_argument_bind.1 h
    obtain ⟨v, inStack, rfl, hv, rfl⟩ := (completes_single boolean_eq_ok_iff).1 h
    exact .upvalue (name_eq_ok_iff.1 ht) (integer_eq_ok_iff.1 hu) hv

theorem completes_of_clause {dir : Directive} {ts : List Token} {s : Statement}
    (h : Clause dir ts s) : (directiveArguments dir).Completes ts s := by
  cases h with
  | format ht => exact (completes_single byte_eq_ok_iff).2 ⟨_, _, rfl, ht, rfl⟩
  | endianness ht => exact (completes_single byteOrder_eq_ok_iff).2 ⟨_, _, rfl, ht, rfl⟩
  | intSize ht => exact (completes_single byte_eq_ok_iff).2 ⟨_, _, rfl, ht, rfl⟩
  | sizeTSize ht => exact (completes_single byte_eq_ok_iff).2 ⟨_, _, rfl, ht, rfl⟩
  | instructionSize ht => exact (completes_single byte_eq_ok_iff).2 ⟨_, _, rfl, ht, rfl⟩
  | numberFormat ht hu =>
    refine completes_argument_bind.2 ⟨_, _, _, rfl, numberKind_eq_ok_iff.2 ht, ?_⟩
    exact (completes_single byte_eq_ok_iff).2 ⟨_, _, rfl, hu, rfl⟩
  | function ht =>
    refine completes_argument.2 ⟨_, rfl, ?_⟩
    rw [name_eq_ok_iff.2 ht]
    rfl
  | source ht => exact (completes_single string_eq_ok_iff).2 ⟨_, _, rfl, ht, rfl⟩
  | lineDefined ht => exact (completes_single integer_eq_ok_iff).2 ⟨_, _, rfl, ht, rfl⟩
  | lastLineDefined ht => exact (completes_single integer_eq_ok_iff).2 ⟨_, _, rfl, ht, rfl⟩
  | numParams ht => exact (completes_single byte_eq_ok_iff).2 ⟨_, _, rfl, ht, rfl⟩
  | isVararg ht => exact (completes_single byte_eq_ok_iff).2 ⟨_, _, rfl, ht, rfl⟩
  | maxStackSize ht => exact (completes_single byte_eq_ok_iff).2 ⟨_, _, rfl, ht, rfl⟩
  | constant ht hu =>
    refine completes_argument_bind.2 ⟨_, _, _, rfl, name_eq_ok_iff.2 ht, ?_⟩
    refine completes_andThen.2 ⟨_, _, [], rfl, completes_constantValue.2 ⟨_, rfl, hu⟩, ?_⟩
    exact completes_done.2 ⟨rfl, rfl⟩
  | line ht => exact (completes_single integer_eq_ok_iff).2 ⟨_, _, rfl, ht, rfl⟩
  | localVar ht hu hv =>
    refine completes_argument_bind.2 ⟨_, _, _, rfl, string_eq_ok_iff.2 ht, ?_⟩
    refine completes_argument_bind.2 ⟨_, _, _, rfl, integer_eq_ok_iff.2 hu, ?_⟩
    exact (completes_single integer_eq_ok_iff).2 ⟨_, _, rfl, hv, rfl⟩
  | upvalue ht hu hv =>
    refine completes_argument_bind.2 ⟨_, _, _, rfl, name_eq_ok_iff.2 ht, ?_⟩
    refine completes_argument_bind.2 ⟨_, _, _, rfl, integer_eq_ok_iff.2 hu, ?_⟩
    exact (completes_single boolean_eq_ok_iff).2 ⟨_, _, rfl, hv, rfl⟩

/-! ### Instructions -/

/-- The operands that complete an instruction are read as what its word stores.  Bits that earlier
operands set are out of the way of those that follow. -/
theorem operand_of_completes {op : Opcode} {fs : List OperandFormat}
    (hfs : ∀ f ∈ fs, f ∈ op.operands)
    (hdisjoint : fs.Pairwise fun f g =>
      f.slot.field.offset + f.slot.field.width ≤ g.slot.field.offset ∨
        g.slot.field.offset + g.slot.field.width ≤ f.slot.field.offset)
    {w₀ w : Word} (hclear : ∀ f ∈ fs, ∀ i, f.slot.field.Covers i → ¬w₀.getLsbD i)
    {args : List Token} (h : (operands op w₀ fs).Completes args w) :
    List.Forall₂ (fun f a => operand op f a = .ok (w.slot f.slot)) fs args := by
  induction fs generalizing w₀ args with
  | nil =>
    obtain ⟨rfl, -⟩ := completes_done.1 h
    exact .nil
  | cons f fs ih =>
    rw [List.forall_mem_cons] at hfs hclear
    rw [List.pairwise_cons] at hdisjoint
    obtain ⟨hall, -, hwidth⟩ := op.operands_spec f hfs.1
    obtain ⟨a, rest, v, rfl, hv, hrest⟩ := completes_argument_bind.1 h
    have hbounds := operand_bounds hall hv
    have hencode : ∀ i, (f.slot.field.encode v).getLsbD i → f.slot.field.Covers i :=
      fun i hi => Field.covers_of_getLsbD_encode hwidth hbounds.1 hbounds.2 hi
    have hoff : ∀ g ∈ fs, ∀ i, g.slot.field.Covers i → ¬f.slot.field.Covers i := by
      rintro g hg i ⟨hlo, hhi⟩ ⟨hlo', hhi'⟩
      have := hdisjoint.1 g hg
      omega
    -- What follows leaves the bits of this operand alone.
    have hslot : w.slot f.slot = v := by
      refine Field.decode_of_getLsbD f.slot.field_le hbounds.1 hbounds.2 fun i hi => ?_
      have hbits := (ensures_operands hfs.2 _).of_completes hrest i
      rw [BitVec.getLsbD_or, Bool.or_eq_true] at hbits
      refine Bool.eq_iff_iff.2 ⟨fun hbit => ?_, fun hbit => hbits.1 (.inr hbit)⟩
      rcases hbits.2 hbit with (hbit | hbit) | ⟨g, hg, hcovers⟩
      · exact absurd hbit (hclear.1 i hi)
      · exact hbit
      · exact absurd hi (hoff g hg i hcovers)
    refine .cons (by rw [hslot]; exact hv) (ih hfs.2 hdisjoint.2 ?_ hrest)
    intro g hg i hi
    rw [BitVec.getLsbD_or, Bool.or_eq_true]
    rintro (hbit | hbit)
    · exact hclear.2 g hg i hi hbit
    · exact hoff g hg i hi (hencode i hbit)

/-- Operands that are read as what a word stores are packed into the word. -/
theorem completes_operands {op : Opcode} {w : Word} {fs : List OperandFormat} {args : List Token}
    (h : List.Forall₂ (fun f a => operand op f a = .ok (w.slot f.slot)) fs args) (w₀ : Word) :
    (operands op w₀ fs).Completes args (Word.pack (fun f => w.slot f.slot) w₀ fs) := by
  induction h generalizing w₀ with
  | nil => exact completes_done.2 ⟨rfl, rfl⟩
  | cons ha _ ih => exact completes_argument_bind.2 ⟨_, _, _, rfl, ha, ih _⟩

theorem completes_instruction {op : Opcode} {args : List Token} {w : Word} :
    (operands op (Word.opcodeField.encode op.number) op.operands).Completes args w ↔
      w.IsInstructionOf op ∧
        List.Forall₂ (fun f a => a.IsOperand f (w.operand f)) op.operands args := by
  have hread : List.Forall₂ (fun f a => operand op f a = .ok (w.slot f.slot)) op.operands args ↔
      List.Forall₂ (fun f a => a.IsOperand f (w.operand f)) op.operands args := by
    have hiff : ∀ f ∈ op.operands, ∀ a : Token,
        operand op f a = .ok (w.slot f.slot) ↔ a.IsOperand f (w.operand f) := by
      intro f hf a
      rw [operand_eq_ok_iff (op.operands_spec f hf).1, w.operand_eq_shown]
      exact and_iff_left (w.slot_bounds f.slot)
    rw [List.forall₂_iff_get, List.forall₂_iff_get]
    refine and_congr_right fun hlength => forall_congr' fun i => ?_
    exact forall_congr' fun hi => forall_congr' fun _ => hiff _ (List.get_mem _ _) _
  constructor
  · intro h
    refine ⟨(ensures_instruction op).of_completes h, hread.1 ?_⟩
    refine operand_of_completes (fun _ hf => hf) op.operands_disjoint ?_ h
    intro f hf i hi hbit
    rw [Word.getLsbD_opcodeField_encode] at hbit
    have := op.lt_six_of_testBit hbit
    have := (op.operands_spec f hf).2.1
    have := hi.1
    omega
  · rintro ⟨hw, hargs⟩
    have h := completes_operands (hread.2 hargs) (Word.opcodeField.encode op.number)
    rwa [Word.pack_slots hw] at h

/-! ### Heads -/

theorem ofToken?_eq_directive_iff {t : Token} {dir : Directive} :
    ofToken? t = some (.directive dir) ↔ t.literal = dir.token := by
  rw [ofToken?]
  constructor
  · intro h
    split at h
    · rename_i dir' hdir
      cases h
      have := List.find?_some hdir
      exact (of_decide_eq_true this).symm
    · split_ifs at h
      cases hop : Opcode.ofMnemonic? t.literal <;> simp [hop] at h
  · intro h
    rw [h, Directive.ofToken?_token]

/-- No mnemonic starts with the point that directives start with. -/
theorem foldCase_token_ne (dir : Directive) (op : Opcode) :
    Opcode.foldCase dir.token ≠ op.mnemonic := by
  have hdir : (Opcode.foldCase dir.token).head? = some 0x2E := by cases dir <;> decide
  have hop : op.mnemonic.head? ≠ some 0x2E := by cases op <;> decide
  intro h
  exact hop (h ▸ hdir)

theorem ofToken?_eq_mnemonic_iff {t : Token} {op : Opcode} :
    ofToken? t = some (.mnemonic op) ↔
      t.kind = .word ∧ Opcode.foldCase t.literal = op.mnemonic := by
  rw [ofToken?]
  constructor
  · intro h
    split at h
    · cases h
    · split_ifs at h with hk
      cases hop : Opcode.ofMnemonic? t.literal with
      | none => simp [hop] at h
      | some op' =>
        obtain rfl : op' = op := by simpa [hop] using h
        have := List.find?_some hop
        exact ⟨hk, (of_decide_eq_true this).symm⟩
  · rintro ⟨hk, hfold⟩
    have hnone : Directive.ofToken? t.literal = none := by
      cases hdir : Directive.ofToken? t.literal with
      | none => rfl
      | some dir =>
        have := List.find?_some hdir
        rw [← of_decide_eq_true this] at hfold
        exact absurd hfold (foldCase_token_ne dir op)
    have hop : Opcode.ofMnemonic? t.literal = some op := by
      have hsame : Opcode.foldCase op.mnemonic = op.mnemonic := by cases op <;> decide
      have hfind := ofMnemonic?_mnemonic op
      rw [Opcode.ofMnemonic?, hsame] at hfind
      rw [Opcode.ofMnemonic?, hfold]
      exact hfind
    simp only [hnone, if_pos hk, hop, Option.map_some]

/-- A statement is completed by the arguments that make a phrase with its head. -/
theorem completes_arguments_iff {t : Token} {args : List Token} {s : Statement} :
    (∃ head, ofToken? t = some head ∧ head.arguments.Completes args s) ↔ Phrase (t :: args) s := by
  constructor
  · rintro ⟨dir | op, hhead, h⟩
    · exact .directive (ofToken?_eq_directive_iff.1 hhead) (clause_of_completes h)
    · obtain ⟨w, us, vs, rfl, hw, hdone⟩ := completes_andThen.1 h
      obtain ⟨rfl, rfl⟩ := completes_done.1 hdone
      obtain ⟨hk, hfold⟩ := ofToken?_eq_mnemonic_iff.1 hhead
      obtain ⟨hw, hargs⟩ := completes_instruction.1 hw
      rw [List.append_nil]
      exact .instruction hk hfold hw hargs
  · rintro (⟨ht, hargs⟩ | ⟨hk, ht, hw, hargs⟩)
    · exact ⟨_, ofToken?_eq_directive_iff.2 ht, completes_of_clause hargs⟩
    · refine ⟨_, ofToken?_eq_mnemonic_iff.2 ⟨hk, ht⟩, ?_⟩
      refine completes_andThen.2 ⟨_, _, [], (List.append_nil _).symm,
        completes_instruction.2 ⟨hw, hargs⟩, ?_⟩
      exact completes_done.2 ⟨rfl, rfl⟩

end Head

end LuaAssembly
