import Mathlib
import LuaAssembly.Proofs.Bytecode.Word
import LuaAssembly.Proofs.Source.Argument

/-!
# Written instructions are read back

The operands of an instruction, in source form, are read as the values that are stored in the
word, so the line of an instruction describes the same word again, without the bits that no
operand shows.  The remarks behind the instruction are a comment and describe nothing, and so is
the whole line of a word without an operation.
-/
namespace LuaAssembly

/-! ## Operands -/

namespace Word

variable (w : Word)

theorem slot_bounds (s : Slot) : 0 ≤ w.slot s ∧ w.slot s ≤ s.field.max :=
  (Field.check_iff _ _).1 (Field.check_decode s.field w (by cases s <;> decide))

theorem isInt32_operand (f : OperandFormat) : IsInt32 (w.operand f).value := by
  have hmax : f.slot.field.max < 2 ^ 18 := by
    cases f.slot <;> decide
  have hbit : constantBit = 256 := by decide
  have hbias : signedBias = 131071 := by decide
  have hbounds := w.slot_bounds f.slot
  -- Whatever is taken off the stored value is less than it could hold.
  have hwithin : ∀ bias : Int, 0 ≤ bias → bias < 2 ^ 18 → IsInt32 (w.slot f.slot - bias) :=
    fun bias h₁ h₂ => ⟨by omega, by omega⟩
  have hstored : IsInt32 (w.slot f.slot) := by simpa using hwithin 0
  rw [operand]
  cases f.spelling with
  | plain => exact hstored
  | register => exact hstored
  | constant => exact hstored
  | either =>
    simp only
    split_ifs
    · exact hstored
    · exact hwithin _ (by omega) (by omega)
  | signed => exact hwithin _ (by omega) (by omega)

/-- An operand in source form is spelled as its format asks for. -/
theorem isOperand_operandText {t : Token} {f : OperandFormat} (ht : t.literal = w.operandText f) :
    t.IsOperand f (w.operand f) := by
  have hint := w.isInt32_operand f
  have hdecimal := Numeral.isDecimal_ofInt (w.operand f).value
  have hr : utf8 "r" = [0x72] := by decide
  have hk : utf8 "k" = [0x6B] := by decide
  rw [operandText] at ht
  rw [Token.IsOperand]
  cases hspelling : f.spelling with
  | plain =>
    simp only [hspelling, List.nil_append] at ht
    exact ⟨ht ▸ hdecimal, hint⟩
  | signed =>
    simp only [hspelling, List.nil_append] at ht
    exact ⟨ht ▸ hdecimal, hint⟩
  | register =>
    simp only [hspelling, hr, List.singleton_append] at ht
    exact ⟨_, ht, hdecimal, hint⟩
  | constant =>
    simp only [hspelling, hk, List.singleton_append] at ht
    exact ⟨_, ht, hdecimal, hint⟩
  | either =>
    cases hconstant : (w.operand f).constant with
    | false =>
      simp only [hspelling, hconstant, hr, Bool.false_eq_true, if_false,
        List.singleton_append] at ht
      exact ⟨_, ht, hdecimal, hint⟩
    | true =>
      simp only [hspelling, hconstant, hk, if_true, List.singleton_append] at ht
      exact ⟨_, ht, hdecimal, hint⟩

end Word

/-- An operand in source form is read as what the word stores for it. -/
theorem Argument.operand_operandText {t : Token} {w : Word} {op : Opcode} {f : OperandFormat}
    (hf : f ∈ OperandFormat.all) (ht : t.literal = w.operandText f) :
    operand op f t = .ok (w.slot f.slot) :=
  (operand_eq_ok_iff hf).2 ⟨w.isOperand_operandText ht, w.slot_bounds f.slot⟩

theorem gives_operands (w acc : Word) (op : Opcode) {fs : List OperandFormat}
    (hfs : ∀ f ∈ fs, f ∈ OperandFormat.all) :
    (Head.operands op acc fs).Gives (· = Word.pack (fun f => w.slot f.slot) acc fs)
      (fs.map fun f => (.word, w.operandText f)) := by
  induction fs generalizing acc with
  | nil => exact rfl
  | cons f fs ih =>
    rw [List.forall_mem_cons] at hfs
    exact Reading.gives_argument_bind (fun t _ ht => Argument.operand_operandText hfs.1 ht)
      (ih _ hfs.2)

/-! ## Lines of code -/

theorem isWord_operandText (w : Word) (f : OperandFormat) : IsWord (w.operandText f) := by
  have hletter : ∀ {s : String}, isPlainWord s →
      IsWord (utf8 s ++ Numeral.ofInt (w.operand f).value) :=
    fun hs => (isWord_utf8 hs).append (isWord_ofInt _).bytes
  rw [Word.operandText]
  cases f.spelling with
  | plain => exact isWord_ofInt _
  | signed => exact isWord_ofInt _
  | register => exact hletter (by decide +kernel)
  | constant => exact hletter (by decide +kernel)
  | either =>
    simp only
    split_ifs
    · exact hletter (by decide +kernel)
    · exact hletter (by decide +kernel)

theorem isWord_mnemonic (op : Opcode) : IsWord op.mnemonic := by
  cases op <;> exact isWord_utf8 (by decide +kernel)

/-- Words with a blank behind each. -/
theorem Spells.words {w : Bytes} (ws : List Bytes) (hw : IsWord w) (hws : ∀ x ∈ ws, IsWord x) :
    Spells (w ++ (ws.flatMap fun x => utf8 " " ++ x) ++ [0x20])
      ((w :: ws).map fun x => (.word, x)) := by
  rw [show utf8 " " = [0x20] by decide]
  induction ws generalizing w with
  | nil => simpa using Spells.word hw (by decide)
  | cons x ws ih =>
    rw [List.forall_mem_cons] at hws
    have h := (Spells.word hw (b := 0x20) (by decide)).append (ih hws.1 hws.2)
    simpa using h

/-- A text padded with blanks, and a remark behind it. -/
theorem Spells.remark {text body : Bytes} {shapes : List (TokenKind × Bytes)} (width : Nat)
    (h : Spells (text ++ [0x20]) shapes) (hbody : 0x0A ∉ body) :
    Spells (text.padRight width ++ utf8 " ; " ++ body ++ utf8 "\n") shapes := by
  have hblanks : Spells (List.replicate (width - text.length) 0x20) [] :=
    Spells.blanks fun b hb => by rw [List.eq_of_mem_replicate hb]; decide
  have hremark : Spells (0x3B :: (0x20 :: body ++ [0x0A])) [] :=
    Spells.comment (by simpa using hbody)
  have hall := (h.append hblanks).append hremark
  rw [List.append_nil, List.append_nil] at hall
  rw [show utf8 " ; " = [0x20, 0x3B, 0x20] by decide, show utf8 "\n" = [0x0A] by decide]
  have hcomm : List.replicate (width - text.length) (0x20 : UInt8) ++ [0x20] =
      0x20 :: List.replicate (width - text.length) 0x20 := by
    rw [← List.replicate_succ', List.replicate_succ]
  rw [Bytes.padRight]
  convert hall using 1
  simp only [List.append_assoc, List.cons_append, List.nil_append]
  rw [List.append_cons (List.replicate _ _), hcomm, List.cons_append]

theorem mem_all_opcode (op : Opcode) : op ∈ Opcode.all := by
  cases op <;> decide

theorem ofMnemonic?_mnemonic (op : Opcode) : Opcode.ofMnemonic? op.mnemonic = some op := by
  have htable : ∀ op ∈ Opcode.all, Opcode.ofMnemonic? op.mnemonic = some op := by decide +kernel
  exact htable op (mem_all_opcode op)

theorem ofToken?_mnemonic (op : Opcode) : Directive.ofToken? op.mnemonic = none := by
  have htable : ∀ op ∈ Opcode.all, Directive.ofToken? op.mnemonic = none := by decide +kernel
  exact htable op (mem_all_opcode op)

theorem newline_not_mem_of_wordBytes {bs : Bytes} (h : WordBytes bs) : 0x0A ∉ bs :=
  fun hmem => absurd (h _ hmem).1 (by decide)

theorem newline_not_mem_join {sep : Bytes} {pieces : List Bytes} (hsep : 0x0A ∉ sep)
    (h : ∀ piece ∈ pieces, 0x0A ∉ piece) : 0x0A ∉ Bytes.join sep pieces := by
  induction pieces with
  | nil => simp [Bytes.join]
  | cons piece pieces ih =>
    rw [List.forall_mem_cons] at h
    cases pieces with
    | nil => exact h.1
    | cons piece' pieces =>
      rw [Bytes.join]
      · simp [h.1, hsep, ih h.2]
      · simp

/-- Remarks stay on their line if the descriptions of constants do. -/
theorem newline_not_mem_notes {names : Option CodeListing.Namer}
    (hnames : ∀ namer ∈ names, ∀ k, 0x0A ∉ namer k) (pc : Nat) (w : Word) (op : Opcode) :
    ∀ note ∈ CodeListing.notes names pc w op, 0x0A ∉ note := by
  have hint : ∀ v, 0x0A ∉ Numeral.ofInt v :=
    fun v => newline_not_mem_of_wordBytes (isWord_ofInt v).bytes
  have hnat : ∀ n, 0x0A ∉ Numeral.ofNat n :=
    fun n => newline_not_mem_of_wordBytes (isWord_ofNat n).bytes
  have hopen : 0x0A ∉ utf8 "[" := by decide
  have hclose : 0x0A ∉ utf8 "]" := by decide
  have hto : 0x0A ∉ utf8 "to [" := by decide
  have hk : 0x0A ∉ utf8 "k" := by decide
  have heq : 0x0A ∉ utf8 " = " := by decide
  intro note hnote
  simp only [CodeListing.notes, List.cons_append, List.mem_cons, List.mem_append] at hnote
  rcases hnote with rfl | hnote | hnote
  · simp [hopen, hnat, hclose]
  · split_ifs at hnote
    · rw [List.mem_singleton] at hnote
      rw [hnote]
      simp [hto, hint, hclose]
    · cases hnote
  · cases names with
    | none => cases hnote
    | some namer =>
      obtain ⟨f, -, hf⟩ := List.mem_filterMap.1 hnote
      split_ifs at hf
      cases hf
      simp [hk, hint, heq, hnames namer rfl]

/-- The line of an instruction adds what it shows of the instruction to the current function. -/
theorem Describes.instruction {w : Word} {op : Opcode} (hop : w.opcode? = some op)
    {names : Option CodeListing.Namer} (hnames : ∀ namer ∈ names, ∀ k, 0x0A ∉ namer k) (pc : Nat)
    {H : HeaderDraft} {fs : List FunctionDraft} {f : FunctionDraft} (hf : f.maxStackSize.isSome) :
    Describes (CodeListing.line names pc w ++ utf8 "\n") (.done ⟨H, fs, some f⟩)
      (.done ⟨H, fs, some { f with code := f.code ++ [Word.pack (fun f => w.slot f.slot)
        (Word.opcodeField.encode op.number) op.operands] }⟩) := by
  have hwords := Spells.words (op.operands.map w.operandText) (isWord_mnemonic op)
    (by simp [isWord_operandText])
  rw [List.flatMap_map] at hwords
  have hnotes : 0x0A ∉ Bytes.join (utf8 " ") (CodeListing.notes names pc w op) :=
    newline_not_mem_join (by decide) (newline_not_mem_notes hnames pc w op)
  have htext : w.text = op.mnemonic ++ op.operands.flatMap fun f => utf8 " " ++ w.operandText f := by
    rw [Word.text, hop]
  rw [CodeListing.line, hop]
  simp only
  refine Describes.statement (.mnemonic op) (Spells.remark 24 (htext ▸ hwords) hnotes) ?_ ?_ ?_
  · intro t ht
    obtain ⟨hkind, hliteral⟩ := Prod.mk.inj ht
    rw [Head.ofToken?, hliteral, ofToken?_mnemonic]
    simp only [hkind, if_true, ofMnemonic?_mnemonic]
    rfl
  · simp [Draft.objection?, hf]
  · have hgives := gives_operands w (Word.opcodeField.encode op.number) op
      fun f hf => (op.operands_spec f hf).1
    rw [List.map_map, ← List.append_nil (List.map _ _)]
    refine hgives.andThen fun a ha => ?_
    rw [ha]
    exact rfl

theorem newline_not_mem_hexUpper (width n : Nat) : 0x0A ∉ Numeral.hexUpper width n := by
  have htable : ∀ v < 16, (if 0x61 ≤ Numeral.digit v then Numeral.digit v - 0x20
      else Numeral.digit v) ≠ 0x0A := by decide
  intro hmem
  obtain ⟨b, hb, heq⟩ := List.mem_map.1 hmem
  obtain ⟨v, hv, rfl⟩ := Numeral.exists_digit_of_mem_fixed (by decide) hb
  exact htable v hv heq

/-- The line of a word adds to the current function the instruction that the word is listed as.
The line of a word without an operation is a comment. -/
theorem Describes.word (w : Word) {names : Option CodeListing.Namer}
    (hnames : ∀ namer ∈ names, ∀ k, 0x0A ∉ namer k) (pc : Nat) {H : HeaderDraft}
    {fs : List FunctionDraft} {f : FunctionDraft} (hf : f.maxStackSize.isSome) :
    Describes (CodeListing.line names pc w ++ utf8 "\n") (.done ⟨H, fs, some f⟩)
      (.done ⟨H, fs, some { f with code := f.code ++ w.listed?.toList }⟩) := by
  cases hop : w.opcode? with
  | some op =>
    rw [Word.listed?, hop]
    exact instruction hop hnames pc hf
  | none =>
    have hbody : 0x0A ∉ utf8 " unknown instruction 0x" ++ Numeral.hexUpper 8 w.toNat := by
      rw [List.mem_append, not_or]
      exact ⟨by decide, newline_not_mem_hexUpper 8 _⟩
    have htext : CodeListing.line names pc w ++ utf8 "\n" =
        0x3B :: ((utf8 " unknown instruction 0x" ++ Numeral.hexUpper 8 w.toNat) ++ [0x0A]) := by
      rw [CodeListing.line, hop, Word.text, hop]
      rfl
    rw [Word.listed?, hop, htext]
    simpa using of_spells_nil (Spells.comment hbody) _

end LuaAssembly
