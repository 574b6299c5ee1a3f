import Mathlib
import LuaAssembly.Bytecode.Instruction

/-!
# Bits of instruction words

A word is the instruction of an operation when its opcode field names the operation and no other
bit is set than those that the operands of the operation are stored in.  Such a word is put
together again from its opcode and its operands; any other word is listed without the bits that
are not shown, or as a comment.
-/
namespace LuaAssembly

namespace Field

/-- The bit belongs to the field. -/
def Covers (f : Field) (i : Nat) : Prop :=
  f.offset ≤ i ∧ i < f.offset + f.width

instance (f : Field) (i : Nat) : Decidable (f.Covers i) :=
  inferInstanceAs (Decidable (_ ∧ _))

theorem getLsbD_encode_natCast (f : Field) (n i : Nat) :
    (f.encode n).getLsbD i = (decide (i < 32) && (decide (f.offset ≤ i) && n.testBit (i - f.offset))) := by
  rw [encode, BitVec.ofInt_natCast, BitVec.getLsbD_shiftLeft, BitVec.getLsbD_ofNat]
  by_cases hi : i < 32 <;> by_cases ho : i < f.offset
  · simp [hi, ho]
  · have : i - f.offset < 32 := by omega
    simp [hi, ho, this, Nat.le_of_not_lt ho]
  · simp [hi]
  · simp [hi]

/-- A value that fits the field sets no bit outside it. -/
theorem covers_of_getLsbD_encode {f : Field} {v : Int} (hwidth : f.width < 64) (hv : 0 ≤ v)
    (hmax : v ≤ f.max) {i : Nat} (hi : (f.encode v).getLsbD i) : f.Covers i := by
  obtain ⟨n, rfl⟩ := Int.eq_ofNat_of_zero_le hv
  rw [getLsbD_encode_natCast] at hi
  simp only [Bool.and_eq_true, decide_eq_true_eq] at hi
  obtain ⟨-, hoffset, hbit⟩ := hi
  refine ⟨hoffset, ?_⟩
  by_contra hout
  rw [max, if_pos hwidth] at hmax
  have hlt : n < 2 ^ f.width := by
    have : (n : Int) < (2 ^ f.width : Nat) := by push_cast; omega
    exact_mod_cast this
  have : n < 2 ^ (i - f.offset) := hlt.trans_le (Nat.pow_le_pow_right (by decide) (by omega))
  rw [Nat.testBit_lt_two_pow this] at hbit
  cases hbit

/-- Putting back what a field holds sets the bits of the field as they were. -/
theorem getLsbD_encode_decode {f : Field} (hwidth : f.width < 64) (w : Word) (i : Nat) :
    (f.encode (f.decode w)).getLsbD i = (decide (f.Covers i) && w.getLsbD i) := by
  rw [decode]
  simp only [if_pos hwidth]
  rw [getLsbD_encode_natCast, Nat.testBit_mod_two_pow, Nat.testBit_div_two_pow]
  by_cases ho : f.offset ≤ i
  · have hsum : i - f.offset + f.offset = i := by omega
    rw [hsum, ← BitVec.getLsbD]
    by_cases hi : i < 32
    · simp only [hi, ho, decide_true, Bool.true_and, Covers]
      congr 2
      exact propext ⟨fun h => ⟨trivial, by omega⟩, fun h => by omega⟩
    · rw [BitVec.getLsbD_of_ge w i (by omega)]
      simp
  · simp [Covers, ho]

/-- A field holds the value that its bits spell. -/
theorem decode_of_getLsbD {f : Field} {v : Int} {w : Word} (hwidth : f.offset + f.width ≤ 32)
    (hv : 0 ≤ v) (hmax : v ≤ f.max)
    (h : ∀ i, f.Covers i → w.getLsbD i = (f.encode v).getLsbD i) : f.decode w = v := by
  obtain ⟨n, rfl⟩ := Int.eq_ofNat_of_zero_le hv
  have hlt64 : f.width < 64 := by omega
  rw [max, if_pos hlt64] at hmax
  have hlt : n < 2 ^ f.width := by
    have : (n : Int) < (2 ^ f.width : Nat) := by push_cast; omega
    exact_mod_cast this
  simp only [decode, if_pos hlt64]
  congr 1
  refine Nat.eq_of_testBit_eq fun i => ?_
  rw [Nat.testBit_mod_two_pow, Nat.testBit_div_two_pow]
  by_cases hi : i < f.width
  · have hbit := h (i + f.offset) ⟨by omega, by omega⟩
    rw [getLsbD_encode_natCast, BitVec.getLsbD] at hbit
    rw [decide_eq_true hi, Bool.true_and, hbit, decide_eq_true (by omega : i + f.offset < 32),
      decide_eq_true (by omega : f.offset ≤ i + f.offset), Nat.add_sub_cancel]
    rfl
  · have : n < 2 ^ i := hlt.trans_le (Nat.pow_le_pow_right (by decide) (by omega))
    rw [decide_eq_false hi, Bool.false_and, Nat.testBit_lt_two_pow this]

end Field

theorem Opcode.ofNumber?_eq_some_iff {n : Nat} {op : Opcode} :
    ofNumber? n = some op ↔ n = op.number := by
  constructor
  · intro h
    have hn : n < 38 := by
      by_contra hge
      rw [(ofNumber?_eq_none_iff n).2 (by omega)] at h
      cases h
    have htable : ∀ n < 38, (ofNumber? n).map number = some n := by decide
    have hnumber := htable n hn
    rw [h] at hnumber
    exact (Option.some.inj hnumber).symm
  · rintro rfl
    exact ofNumber?_number op

theorem Opcode.lt_six_of_testBit (op : Opcode) {i : Nat} (h : op.number.testBit i) : i < 6 := by
  by_contra hge
  have hlt : op.number < 2 ^ i :=
    calc op.number < 38 := op.number_lt
      _ ≤ 2 ^ 6 := by decide
      _ ≤ 2 ^ i := Nat.pow_le_pow_right (by decide) (by omega)
  rw [Nat.testBit_lt_two_pow hlt] at h
  cases h

/-- Operands that choose between a register and a constant have slots of nine bits. -/
theorem OperandFormat.max_of_either {s : Slot}
    (h : (⟨s, .either⟩ : OperandFormat) ∈ OperandFormat.all) : s.field.max = 511 := by
  revert h
  cases s <;> decide

/-- Signed operands have the slot of eighteen bits. -/
theorem OperandFormat.max_of_signed {s : Slot}
    (h : (⟨s, .signed⟩ : OperandFormat) ∈ OperandFormat.all) : s.field.max = 262143 := by
  revert h
  cases s <;> decide

/-- Every operand is stored above the opcode, in a slot that its spelling goes with. -/
theorem Opcode.operands_spec (op : Opcode) : ∀ f ∈ op.operands,
    f ∈ OperandFormat.all ∧ 6 ≤ f.slot.field.offset ∧ f.slot.field.width < 64 := by
  cases op <;> decide

theorem Slot.field_le (s : Slot) : s.field.offset + s.field.width ≤ 32 := by
  cases s <;> decide

/-- No two operands of an operation share a bit. -/
theorem Opcode.operands_disjoint (op : Opcode) : op.operands.Pairwise fun f g =>
    f.slot.field.offset + f.slot.field.width ≤ g.slot.field.offset ∨
      g.slot.field.offset + g.slot.field.width ≤ f.slot.field.offset := by
  cases op <;> decide

namespace Word

/-- The opcode field names the operation. -/
theorem opcode?_eq_some_iff (w : Word) (op : Opcode) :
    w.opcode? = some op ↔ ∀ i < 6, w.getLsbD i = op.number.testBit i := by
  have hnumber : w.opcodeNumber = w.toNat % 2 ^ 6 := by
    simp [opcodeNumber, Field.decode, opcodeField]
    omega
  rw [opcode?, Opcode.ofNumber?_eq_some_iff, hnumber]
  constructor
  · intro h i hi
    rw [← h, Nat.testBit_mod_two_pow, decide_eq_true hi, Bool.true_and, BitVec.getLsbD]
  · intro h
    refine Nat.eq_of_testBit_eq fun i => ?_
    rw [Nat.testBit_mod_two_pow]
    by_cases hi : i < 6
    · rw [decide_eq_true hi, Bool.true_and, ← h i hi, BitVec.getLsbD]
    · rw [decide_eq_false hi, Bool.false_and, eq_comm, Bool.eq_false_iff]
      exact fun hbit => hi (op.lt_six_of_testBit hbit)

/-- An instruction of the operation: no bit is set outside its opcode and its operands. -/
def IsInstructionOf (w : Word) (op : Opcode) : Prop :=
  w.opcode? = some op ∧
    ∀ i, w.getLsbD i → opcodeField.Covers i ∨ ∃ f ∈ op.operands, f.slot.field.Covers i

instance (w : Word) (op : Opcode) : Decidable (w.IsInstructionOf op) :=
  have : Decidable (∀ i : Fin 32, w.getLsbD i → opcodeField.Covers i ∨
      ∃ f ∈ op.operands, f.slot.field.Covers i) := inferInstance
  decidable_of_iff (w.opcode? = some op ∧ ∀ i : Fin 32, w.getLsbD i → opcodeField.Covers i ∨
      ∃ f ∈ op.operands, f.slot.field.Covers i) <| by
    refine and_congr_right fun _ => ⟨fun h i hi => ?_, fun h i => h i⟩
    by_cases hlt : i < 32
    · exact h ⟨i, hlt⟩ hi
    · rw [BitVec.getLsbD_of_ge w i (by omega)] at hi
      cases hi

/-- An instruction of some operation. -/
def IsInstruction (w : Word) : Prop :=
  ∃ op, w.IsInstructionOf op

instance (w : Word) : Decidable w.IsInstruction :=
  match h : w.opcode? with
  | some op => decidable_of_iff (w.IsInstructionOf op) <| by
    refine ⟨fun hw => ⟨op, hw⟩, fun ⟨op', hw⟩ => ?_⟩
    rwa [Option.some.inj (h.symm.trans hw.1)]
  | none => isFalse fun ⟨_, hw⟩ => by cases h.symm.trans hw.1

/-- A bit is set in words that are or-ed together when one of them has it. -/
theorem getLsbD_foldl_or {α : Type} (part : α → Word) (w : Word) (xs : List α) (i : Nat) :
    (xs.foldl (fun w x => w ||| part x) w).getLsbD i =
      (w.getLsbD i || xs.any fun x => (part x).getLsbD i) := by
  induction xs generalizing w with
  | nil => simp
  | cons x xs ih => rw [List.foldl_cons, ih, BitVec.getLsbD_or, List.any_cons, Bool.or_assoc]

/-- Operands, given by what is stored for each format, packed into a word. -/
def pack (stored : OperandFormat → Int) (w : Word) (fs : List OperandFormat) : Word :=
  fs.foldl (fun w f => w ||| f.slot.field.encode (stored f)) w

theorem getLsbD_pack (stored : OperandFormat → Int) (w : Word) (fs : List OperandFormat)
    (i : Nat) :
    (pack stored w fs).getLsbD i =
      (w.getLsbD i || fs.any fun f => (f.slot.field.encode (stored f)).getLsbD i) :=
  getLsbD_foldl_or _ w fs i

theorem getLsbD_opcodeField_encode (op : Opcode) (i : Nat) :
    (opcodeField.encode op.number).getLsbD i = op.number.testBit i := by
  rw [Field.getLsbD_encode_natCast]
  by_cases hi : i < 32
  · simp [hi, opcodeField]
  · rw [decide_eq_false hi, Bool.false_and, eq_comm, Bool.eq_false_iff]
    intro hbit
    have := op.lt_six_of_testBit hbit
    omega

/-- A word put together again from its opcode and its operands has those of its bits that belong
to them. -/
theorem getLsbD_pack_slots {w : Word} {op : Opcode} (hop : w.opcode? = some op) (i : Nat) :
    (pack (fun f => w.slot f.slot) (opcodeField.encode op.number) op.operands).getLsbD i ↔
      w.getLsbD i ∧ (opcodeField.Covers i ∨ ∃ f ∈ op.operands, f.slot.field.Covers i) := by
  rw [opcode?_eq_some_iff] at hop
  have hfield : ∀ f ∈ op.operands, (f.slot.field.encode (w.slot f.slot)).getLsbD i =
      (decide (f.slot.field.Covers i) && w.getLsbD i) :=
    fun f hf => Field.getLsbD_encode_decode (op.operands_spec f hf).2.2 w i
  rw [getLsbD_pack, getLsbD_opcodeField_encode, Bool.or_eq_true, List.any_eq_true]
  constructor
  · rintro (hbit | ⟨f, hf, hbit⟩)
    · have hi := op.lt_six_of_testBit hbit
      rw [hop i hi]
      exact ⟨hbit, .inl ⟨Nat.zero_le i, by simpa [opcodeField] using hi⟩⟩
    · rw [hfield f hf, Bool.and_eq_true, decide_eq_true_eq] at hbit
      exact ⟨hbit.2, .inr ⟨f, hf, hbit.1⟩⟩
  · rintro ⟨hbit, hcovers | ⟨f, hf, hcovers⟩⟩
    · left
      rw [← hop i hcovers.2]
      exact hbit
    · right
      exact ⟨f, hf, by rw [hfield f hf, decide_eq_true hcovers, hbit]; rfl⟩

/-- An instruction is put together again from its opcode and its operands. -/
theorem pack_slots {w : Word} {op : Opcode} (h : w.IsInstructionOf op) :
    pack (fun f => w.slot f.slot) (opcodeField.encode op.number) op.operands = w := by
  apply BitVec.eq_of_getLsbD_eq
  intro i _
  rw [Bool.eq_iff_iff, getLsbD_pack_slots h.1]
  exact and_iff_left_of_imp (h.2 i)

/-! ## Listed words -/

/-- The instruction that a word is listed as.  Bits outside the opcode and the operands are not
written, and a word without an operation is not written as an instruction at all. -/
def listed? (w : Word) : Option Word :=
  w.opcode?.map fun op =>
    pack (fun f => w.slot f.slot) (opcodeField.encode op.number) op.operands

theorem listed?_of_isInstruction {w : Word} (h : w.IsInstruction) : w.listed? = some w := by
  obtain ⟨op, hop⟩ := h
  rw [listed?, hop.1, Option.map_some, pack_slots hop]

theorem getLsbD_of_listed? {w w' : Word} (h : w.listed? = some w') {i : Nat}
    (hi : w'.getLsbD i) : w.getLsbD i := by
  obtain ⟨op, hop, rfl⟩ := Option.map_eq_some_iff.1 h
  exact ((getLsbD_pack_slots hop i).1 hi).1

theorem isInstruction_of_listed? {w w' : Word} (h : w.listed? = some w') : w'.IsInstruction := by
  obtain ⟨op, hop, rfl⟩ := Option.map_eq_some_iff.1 h
  refine ⟨op, (opcode?_eq_some_iff _ _).2 fun i hi => ?_,
    fun i hi => ((getLsbD_pack_slots hop i).1 hi).2⟩
  -- All bits of the opcode are kept.
  rw [← (opcode?_eq_some_iff w op).1 hop i hi, Bool.eq_iff_iff, getLsbD_pack_slots hop]
  exact and_iff_left (.inl ⟨Nat.zero_le i, by simpa [opcodeField] using hi⟩)

/-- Code is listed as it is when all of it is instructions, and only then. -/
theorem filterMap_listed?_eq_self_iff {ws : List Word} :
    ws.filterMap listed? = ws ↔ ∀ w ∈ ws, w.IsInstruction := by
  constructor
  · intro h w hw
    rw [← h] at hw
    obtain ⟨v, -, hv⟩ := List.mem_filterMap.1 hw
    exact isInstruction_of_listed? hv
  · intro h
    rw [List.filterMap_congr fun w hw => listed?_of_isInstruction (h w hw), List.filterMap_some]

end Word

/-! ## Used bits -/

/-- The bits of the field. -/
def Field.mask (f : Field) : Word :=
  f.encode f.max

theorem Field.getLsbD_mask {f : Field} (h : f.offset + f.width ≤ 32) (i : Nat) :
    f.mask.getLsbD i ↔ f.Covers i := by
  have hmax : f.max = ((2 ^ f.width - 1 : Nat) : Int) := by
    rw [max, if_pos (by omega), Nat.cast_sub Nat.one_le_two_pow]
    simp
  rw [mask, hmax, getLsbD_encode_natCast, Nat.testBit_two_pow_sub_one, Covers]
  simp only [Bool.and_eq_true, decide_eq_true_eq]
  omega

/-- The bits that the opcode and the operands of an operation are stored in. -/
def Opcode.usedBits (op : Opcode) : Word :=
  op.operands.foldl (fun bits f => bits ||| f.slot.field.mask) Word.opcodeField.mask

theorem Opcode.getLsbD_usedBits (op : Opcode) (i : Nat) :
    op.usedBits.getLsbD i ↔
      Word.opcodeField.Covers i ∨ ∃ f ∈ op.operands, f.slot.field.Covers i := by
  have hpack : op.usedBits =
      Word.pack (fun f => f.slot.field.max) Word.opcodeField.mask op.operands := rfl
  rw [hpack, Word.getLsbD_pack, Bool.or_eq_true, List.any_eq_true,
    Field.getLsbD_mask (by decide)]
  refine or_congr_right (exists_congr fun f => and_congr_right fun _ => ?_)
  exact Field.getLsbD_mask f.slot.field_le i

namespace Word

/-- The word with only the bits that its operation uses.  There is no such word where no operation
has the number. -/
def cleared? (w : Word) : Option Word :=
  w.opcode?.map fun op => w &&& op.usedBits

theorem listed?_eq_cleared? (w : Word) : w.listed? = w.cleared? := by
  refine Option.map_congr fun op hop => BitVec.eq_of_getLsbD_eq fun i _ => ?_
  rw [Bool.eq_iff_iff, getLsbD_pack_slots hop, BitVec.getLsbD_and, Bool.and_eq_true,
    op.getLsbD_usedBits]

/-- Instructions are the words whose opcode is a number of an operation and that have no bit but
those that the operation uses. -/
theorem isInstruction_iff (w : Word) :
    w.IsInstruction ↔ w.opcodeNumber < 38 ∧ ∀ op ∈ w.opcode?, w &&& ~~~op.usedBits = 0 := by
  have hbits : ∀ op : Opcode, w &&& ~~~op.usedBits = 0 ↔
      ∀ i, w.getLsbD i → opcodeField.Covers i ∨ ∃ f ∈ op.operands, f.slot.field.Covers i := by
    intro op
    simp only [← op.getLsbD_usedBits]
    constructor
    · intro h i hi
      have hbit := congrArg (BitVec.getLsbD · i) h
      have hlt : i < 32 := BitVec.lt_of_getLsbD hi
      simpa [hi, hlt] using hbit
    · intro h
      refine BitVec.eq_of_getLsbD_eq fun i hi => ?_
      cases hbit : w.getLsbD i with
      | false => simp [hbit]
      | true => simp [h i hbit]
  constructor
  · rintro ⟨op, hop, hw⟩
    refine ⟨?_, fun op' hop' => ?_⟩
    · by_contra hge
      rw [opcode?, (Opcode.ofNumber?_eq_none_iff _).2 (by omega)] at hop
      cases hop
    · obtain rfl : op = op' := Option.some.inj (hop.symm.trans hop')
      exact (hbits op).2 hw
  · rintro ⟨hlt, hw⟩
    cases hop : w.opcode? with
    | none =>
      have := (Opcode.ofNumber?_eq_none_iff _).1 hop
      omega
    | some op => exact ⟨op, hop, (hbits op).1 (hw op hop)⟩

end Word

end LuaAssembly
