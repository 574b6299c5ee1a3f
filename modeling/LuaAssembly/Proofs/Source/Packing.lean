import Mathlib
import LuaAssembly.Proofs.Source.Faults

/-!
# Packing of instructions

An operand is an integer or an index of 32 bits, and what the instruction word has room for is less.
`OperandFormat.bounds` says what each format admits.  An instruction whose operands are all
admitted is packed into a word that shows exactly them; otherwise the first operand that is not
admitted is reported, and the code stays as it was.
-/
namespace LuaAssembly

/-! ## One operand -/

/-- The token spells the operand in the given way. -/
inductive Token.Denotes (t : Token) : Spelling → Operand → Prop where
  | plain {v : Int} (h : t.IsInteger v) : Denotes t .plain ⟨v, false⟩
  | register {v : Int} (h : t.IsIndexed 0x72 v) : Denotes t .register ⟨v, false⟩
  | constant {v : Int} (h : t.IsIndexed 0x6B v) : Denotes t .constant ⟨v, true⟩
  | eitherRegister {v : Int} (h : t.IsIndexed 0x72 v) : Denotes t .either ⟨v, false⟩
  | eitherConstant {v : Int} (h : t.IsIndexed 0x6B v) : Denotes t .either ⟨v, true⟩
  | signed {v : Int} (h : t.IsInteger v) : Denotes t .signed ⟨v, false⟩

namespace OperandFormat

/-- The least and the largest value that an operand can have. -/
def bounds (f : OperandFormat) : Int × Int :=
  match f.spelling, f.slot with
  | .either, _ => (0, 255)
  | .signed, _ => (-131071, 131072)
  | _, .a => (0, 255)
  | _, .b => (0, 511)
  | _, .c => (0, 511)
  | _, .bx => (0, 262143)

/-- The operand is within the bounds. -/
def Admits (f : OperandFormat) (x : Operand) : Prop :=
  f.bounds.1 ≤ x.value ∧ x.value ≤ f.bounds.2

instance (f : OperandFormat) (x : Operand) : Decidable (f.Admits x) :=
  inferInstanceAs (Decidable (_ ∧ _))

/-- A plain operand, a register and a constant can have all values that fit the slot. -/
theorem bounds_eq_max {f : OperandFormat} (heither : f.spelling ≠ .either)
    (hsigned : f.spelling ≠ .signed) : f.bounds = (0, f.slot.field.max) := by
  obtain ⟨slot, spelling⟩ := f
  cases spelling with
  | either => exact absurd rfl heither
  | signed => exact absurd rfl hsigned
  | plain => cases slot <;> decide
  | register => cases slot <;> decide
  | constant => cases slot <;> decide

end OperandFormat

namespace Argument

variable {f : OperandFormat} {t : Token} {x : Operand}

/-- A value is taken if it is within the bounds of the format. -/
theorem map_inRange {op : Opcode} {g : Int → Operand} {lo hi v : Int}
    (hbounds : f.bounds = (lo, hi)) (hv : x.value = v) (hg : lo ≤ v → v ≤ hi → g v = x) :
    (inRange f op lo hi v).map g =
      if f.Admits x then .ok x else .error (.operandRange f.slot op x.value) := by
  have hadmits : f.Admits x ↔ lo ≤ v ∧ v ≤ hi := by rw [OperandFormat.Admits, hbounds, hv]
  rw [inRange, hv]
  by_cases h : lo ≤ v ∧ v ≤ hi
  · rw [if_pos h, if_pos (hadmits.2 h), ← hg h.1 h.2]
    rfl
  · rw [if_neg h, if_neg (mt hadmits.1 h)]
    rfl

/-- What is stored for an operand that is admitted shows the operand again; any other operand is
refused. -/
theorem map_shown_operand (op : Opcode) (h : t.Denotes f.spelling x) :
    (operand op f t).map f.shown =
      if f.Admits x then .ok x else .error (.operandRange f.slot op x.value) := by
  have hbit : Word.constantBit = 256 := by decide
  have hindex : Word.maxIndex = 255 := by decide
  have hrange : Word.signedRange = (-131071, 131072) := by decide
  have hmap : ∀ (r : Except Cause Int) (bias : Int),
      (r.map (· + bias)).map f.shown = r.map fun v => f.shown (v + bias) := by
    rintro (cause | v) bias <;> rfl
  obtain ⟨slot, spelling⟩ := f
  change t.Denotes spelling x at h
  cases h with
  | plain h =>
    simp only [operand, integer_eq_ok_iff.2 h]
    exact map_inRange (OperandFormat.bounds_eq_max (by simp) (by simp)) rfl fun _ _ => rfl
  | register h =>
    simp only [operand, register?, indexed?_eq_some_iff.2 h]
    exact map_inRange (OperandFormat.bounds_eq_max (by simp) (by simp)) rfl fun _ _ => rfl
  | constant h =>
    simp only [operand, constant?, indexed?_eq_some_iff.2 h]
    exact map_inRange (OperandFormat.bounds_eq_max (by simp) (by simp)) rfl fun _ _ => rfl
  | @eitherRegister v h =>
    simp only [operand, register?, indexed?_eq_some_iff.2 h]
    refine map_inRange (by rw [hindex]; rfl) rfl fun _ hv => ?_
    exact if_pos (by omega)
  | @eitherConstant v h =>
    simp only [operand, register?_eq_none h, constant?, indexed?_eq_some_iff.2 h, hmap]
    refine map_inRange (by rw [hindex]; rfl) rfl fun hv _ => ?_
    simp only [OperandFormat.shown]
    rw [if_neg (by omega), add_sub_cancel_right]
  | @signed v h =>
    simp only [operand, integer_eq_ok_iff.2 h, hmap]
    refine map_inRange (by rw [hrange]; rfl) rfl fun _ _ => ?_
    simp only [OperandFormat.shown, add_sub_cancel_right]

end Argument

/-- A token with the operand that it spells in a format. -/
structure OperandToken where
  format : OperandFormat
  token : Token
  operand : Operand
  denotes : token.Denotes format.spelling operand

namespace OperandToken

/-- The error that reports the operand. -/
def misfit (a : OperandToken) (op : Opcode) : SourceError :=
  ⟨a.token.pos, .operandRange a.format.slot op a.operand.value⟩

variable {a : OperandToken}

theorem exists_operand_eq_ok (op : Opcode) (h : a.format.Admits a.operand) :
    ∃ v, Argument.operand op a.format a.token = .ok v := by
  have hread := Argument.map_shown_operand op a.denotes
  rw [if_pos h] at hread
  cases hv : Argument.operand op a.format a.token with
  | ok v => exact ⟨v, rfl⟩
  | error cause =>
    rw [hv] at hread
    cases hread

theorem operand_eq_error (op : Opcode) (h : ¬a.format.Admits a.operand) :
    Argument.operand op a.format a.token = .error (a.misfit op).cause := by
  have hread := Argument.map_shown_operand op a.denotes
  rw [if_neg h] at hread
  cases hv : Argument.operand op a.format a.token with
  | ok v =>
    rw [hv] at hread
    cases hread
  | error cause =>
    rw [hv] at hread
    exact congrArg Except.error (Except.error.inj hread)

/-- A word in which the operand is stored shows it. -/
theorem operand_eq_of_slot {op : Opcode} {w : Word}
    (h : Argument.operand op a.format a.token = .ok (w.slot a.format.slot)) :
    w.operand a.format = a.operand := by
  have hread := Argument.map_shown_operand op a.denotes
  rw [h] at hread
  split_ifs at hread with hadmits
  · exact Except.ok.inj hread
  · cases hread

end OperandToken

/-! ## All operands -/

namespace Head

open Reading

variable (op : Opcode) {args : List OperandToken}

/-- Operands that are all admitted complete the instruction. -/
theorem exists_completes_operands (h : ∀ a ∈ args, a.format.Admits a.operand) (w₀ : Word) :
    ∃ w, (operands op w₀ (args.map (·.format))).Completes (args.map (·.token)) w := by
  induction args generalizing w₀ with
  | nil => exact ⟨w₀, completes_done.2 ⟨rfl, rfl⟩⟩
  | cons a args ih =>
    rw [List.forall_mem_cons] at h
    obtain ⟨v, hv⟩ := a.exists_operand_eq_ok op h.1
    obtain ⟨w, hw⟩ := ih h.2 (w₀ ||| a.format.slot.field.encode v)
    exact ⟨w, completes_argument_bind.2 ⟨_, _, v, rfl, hv, hw⟩⟩

/-- The first operand that is not admitted ends the instruction. -/
theorem breaksOff_operands {a : OperandToken} (h : ∀ b ∈ args, b.format.Admits b.operand)
    (ha : ¬a.format.Admits a.operand) (rest : List OperandFormat) (w₀ : Word) :
    (operands op w₀ (args.map (·.format) ++ a.format :: rest)).BreaksOff
      ((args ++ [a]).map (·.token)) (.error (a.misfit op)) := by
  induction args generalizing w₀ with
  | nil =>
    refine breaksOff_andThen.2 (.inl ?_)
    simp [argument, a.operand_eq_error op ha, Reading.error, OperandToken.misfit]
  | cons b args ih =>
    rw [List.forall_mem_cons] at h
    obtain ⟨v, hv⟩ := b.exists_operand_eq_ok op h.1
    refine breaksOff_andThen.2 (.inr ⟨v, [b.token], _, rfl, ?_, ih h.2 _⟩)
    exact completes_argument.2 ⟨b.token, rfl, hv⟩

end Head

/-! ## The instruction -/

/-- What has been read, if it is complete. -/
def Reading.value? {α : Type} : Reading α → Option α
  | .done a => some a
  | .fail _ => none
  | .next _ => none

namespace Assembly

open Reading

/-- The drafts that the assembler has between statements while it is fed with the tokens. -/
def drafts (r : Reading Draft) (ts : List Token) : List Draft :=
  (ts.scanl feed r).filterMap value?

theorem drafts_cons (r : Reading Draft) (t : Token) (ts : List Token) :
    drafts r (t :: ts) = r.value?.toList ++ drafts (feed r t) ts := by
  rw [drafts, List.scanl_cons, List.filterMap_cons, drafts]
  cases r.value? <;> rfl

/-- A statement that ends in a failure leaves no draft. -/
theorem drafts_of_breaksOff {r : Reading Draft} {us : List Token} {e : Failure}
    (h : r.BreaksOff us e) (vs : List Token) : drafts r (us ++ vs) = [] := by
  have hfail : ∀ ts : List Token, drafts (.fail e) ts = [] := by
    intro ts
    induction ts with
    | nil => simp [drafts, value?]
    | cons t ts ih => rwa [drafts_cons]
  induction us generalizing r with
  | nil =>
    cases r with
    | done d => cases h
    | next resume => cases h
    | fail e' =>
      obtain rfl : e' = e := h
      exact hfail vs
  | cons u us ih =>
    cases r with
    | done d => cases h
    | fail e' => cases h
    | next resume =>
      rw [List.cons_append, drafts_cons]
      exact ih h

variable {op : Opcode} {t : Token} {d : Draft} {f : FunctionDraft}

theorem begin_mnemonic (ht : Head.ofToken? t = some (.mnemonic op)) (hcurrent : d.current = some f)
    (hsize : f.maxStackSize.isSome) : begin d t = carryOut d (.mnemonic op) := by
  rw [begin_eq, ht]
  simp [Draft.objection?, hcurrent, hsize, unlessBarred]

theorem feed_of_admitted (ht : Head.ofToken? t = some (.mnemonic op))
    (hcurrent : d.current = some f) (hsize : f.maxStackSize.isSome) {args : List OperandToken}
    (hargs : args.map (·.format) = op.operands) (h : ∀ a ∈ args, a.format.Admits a.operand) :
    ∃ w, (t :: args.map (·.token)).foldl feed (.done d) =
        .done { d with current := some { f with code := f.code ++ [w] } } ∧
      w.IsInstructionOf op ∧ ∀ a ∈ args, w.operand a.format = a.operand := by
  obtain ⟨w, hw⟩ := Head.exists_completes_operands op h (Word.opcodeField.encode op.number)
  rw [hargs] at hw
  obtain ⟨hinstruction, htokens⟩ := Head.completes_instruction.1 hw
  refine ⟨w, ?_, hinstruction, fun a ha => ?_⟩
  · obtain ⟨hkind, hname⟩ := Head.ofToken?_eq_mnemonic_iff.1 ht
    rw [List.foldl_cons, feed]
    refine foldl_feed_eq_done_iff.2 ⟨_, [], _, (List.append_nil _).symm, ?_, rfl⟩
    refine completes_begin_iff.2 ⟨_, .instruction hkind hname hinstruction htokens, ?_, ?_⟩
    · exact ⟨f, hcurrent, hsize⟩
    · simp only [Draft.apply, hcurrent, Option.map_some]
      rfl
  · rw [← hargs, List.forall₂_map_left_iff, List.forall₂_map_right_iff, List.forall₂_same]
      at htokens
    have hformat : a.format ∈ OperandFormat.all := by
      refine (op.operands_spec a.format ?_).1
      rw [← hargs]
      exact List.mem_map_of_mem ha
    have hslot : Argument.operand op a.format a.token = .ok (w.slot a.format.slot) :=
      (Argument.operand_eq_ok_iff hformat).2 ⟨htokens a ha, w.slot_bounds a.format.slot⟩
    exact a.operand_eq_of_slot hslot

theorem feed_of_misfit (ht : Head.ofToken? t = some (.mnemonic op))
    (hcurrent : d.current = some f) (hsize : f.maxStackSize.isSome)
    {front back : List OperandToken} {a : OperandToken}
    (hargs : (front ++ a :: back).map (·.format) = op.operands)
    (hfront : ∀ b ∈ front, b.format.Admits b.operand) (ha : ¬a.format.Admits a.operand) :
    (t :: (front ++ a :: back).map (·.token)).foldl feed (.done d) = .fail (.error (a.misfit op)) ∧
      drafts (.done d) (t :: (front ++ a :: back).map (·.token)) = [d] := by
  have hoff : (begin d t).BreaksOff ((front ++ [a]).map (·.token)) (.error (a.misfit op)) := by
    rw [begin_mnemonic ht hcurrent hsize]
    have hoperands := Head.breaksOff_operands op hfront ha (back.map (·.format))
      (Word.opcodeField.encode op.number)
    rw [← List.map_cons, ← List.map_append, hargs] at hoperands
    exact breaksOff_andThen.2 (.inl (breaksOff_andThen.2 (.inl hoperands)))
  have htokens : (front ++ a :: back).map (·.token) =
      (front ++ [a]).map (·.token) ++ back.map (·.token) := by simp
  constructor
  · rw [List.foldl_cons, feed]
    exact foldl_feed_eq_fail_iff.2 (.inl ⟨_, _, htokens, hoff⟩)
  · rw [drafts_cons, htokens, feed, drafts_of_breaksOff hoff]
    rfl

/-- Where code may stand, an instruction is packed into one word when all of its operands are
admitted, and only then.  The word shows the operation and the operands, and has no other bits.
Otherwise the first operand that is not admitted is reported with its slot and its value, and the
draft stays as it was. -/
theorem instruction_packing (hkind : t.kind = .word)
    (hname : Opcode.foldCase t.literal = op.mnemonic) (hcurrent : d.current = some f)
    (hsize : f.maxStackSize.isSome) {args : List OperandToken}
    (hargs : args.map (·.format) = op.operands) :
    ((∃ w, (t :: args.map (·.token)).foldl feed (.done d) =
        .done { d with current := some { f with code := f.code ++ [w] } }) ↔
      ∀ a ∈ args, a.format.Admits a.operand) ∧
    (∀ w, (t :: args.map (·.token)).foldl feed (.done d) =
        .done { d with current := some { f with code := f.code ++ [w] } } →
      w.opcode? = some op ∧ (∀ a ∈ args, w.operand a.format = a.operand) ∧
        ∀ i, w.getLsbD i →
          Word.opcodeField.Covers i ∨ ∃ a ∈ args, a.format.slot.field.Covers i) ∧
    ∀ front a back, args = front ++ a :: back → (∀ b ∈ front, b.format.Admits b.operand) →
      ¬a.format.Admits a.operand →
        (t :: args.map (·.token)).foldl feed (.done d) =
            .fail (.error ⟨a.token.pos, .operandRange a.format.slot op a.operand.value⟩) ∧
          drafts (.done d) (t :: args.map (·.token)) = [d] := by
  have ht := Head.ofToken?_eq_mnemonic_iff.2 ⟨hkind, hname⟩
  have hadmitted : (∃ w, (t :: args.map (·.token)).foldl feed (.done d) =
      .done { d with current := some { f with code := f.code ++ [w] } }) →
        ∀ a ∈ args, a.format.Admits a.operand := by
    rintro ⟨w, hw⟩
    cases hfind : args.find? fun a => ¬a.format.Admits a.operand with
    | none => simpa using hfind
    | some a =>
      obtain ⟨ha, front, back, rfl, hfront⟩ := List.find?_eq_some_iff_append.1 hfind
      have hfail := (feed_of_misfit ht hcurrent hsize hargs (by simpa using hfront)
        (by simpa using ha)).1
      rw [hw] at hfail
      cases hfail
  refine ⟨⟨hadmitted, fun h => ?_⟩, fun w hw => ?_, ?_⟩
  · obtain ⟨w, hw, -⟩ := feed_of_admitted ht hcurrent hsize hargs h
    exact ⟨w, hw⟩
  · obtain ⟨w', hw', hinstruction, hoperands⟩ :=
      feed_of_admitted ht hcurrent hsize hargs (hadmitted ⟨w, hw⟩)
    obtain rfl : w = w' := by simpa using hw.symm.trans hw'
    refine ⟨hinstruction.1, hoperands, fun i hi => ?_⟩
    rcases hinstruction.2 i hi with hopcode | ⟨g, hg, hcovers⟩
    · exact .inl hopcode
    · rw [← hargs] at hg
      obtain ⟨a, ha, rfl⟩ := List.mem_map.1 hg
      exact .inr ⟨a, ha, hcovers⟩
  · rintro front a back rfl hfront ha
    exact feed_of_misfit ht hcurrent hsize hargs hfront ha

/-- A function that is ready for code. -/
def readyDraft : Draft :=
  { Draft.empty with
    current := some { FunctionDraft.declared (utf8 "m") none with maxStackSize := some 2 } }

theorem instruction_packing_add :
    (∃ w, (tokenize (utf8 "Add r255 k255 r0")).foldl feed (.done readyDraft) =
        .done { readyDraft with
          current := readyDraft.current.map fun f => { f with code := [w] } } ∧
      w.operand ⟨.b, .either⟩ = ⟨255, true⟩) ∧
    (tokenize (utf8 "Add r255 k255 r256")).foldl feed (.done readyDraft) =
        .fail (.error ⟨⟨14, 1, 15⟩, .operandRange .c .add 256⟩) ∧
      drafts (.done readyDraft) (tokenize (utf8 "Add r255 k255 r256")) = [readyDraft] := by
  let head : Token := ⟨.word, utf8 "Add", ⟨0, 1, 1⟩⟩
  let first : OperandToken := ⟨⟨.a, .register⟩, ⟨.word, utf8 "r255", ⟨4, 1, 5⟩⟩, ⟨255, false⟩,
    .register (Argument.indexed?_eq_some_iff.1 (by decide +kernel))⟩
  let second : OperandToken := ⟨⟨.b, .either⟩, ⟨.word, utf8 "k255", ⟨9, 1, 10⟩⟩, ⟨255, true⟩,
    .eitherConstant (Argument.indexed?_eq_some_iff.1 (by decide +kernel))⟩
  let third : OperandToken := ⟨⟨.c, .either⟩, ⟨.word, utf8 "r0", ⟨14, 1, 15⟩⟩, ⟨0, false⟩,
    .eitherRegister (Argument.indexed?_eq_some_iff.1 (by decide +kernel))⟩
  let misfit : OperandToken := ⟨⟨.c, .either⟩, ⟨.word, utf8 "r256", ⟨14, 1, 15⟩⟩, ⟨256, false⟩,
    .eitherRegister (Argument.indexed?_eq_some_iff.1 (by decide +kernel))⟩
  have hname : Opcode.foldCase head.literal = Opcode.add.mnemonic := by decide +kernel
  have hdone : tokenize (utf8 "Add r255 k255 r0") =
      head :: [first, second, third].map (·.token) := by decide +kernel
  have hfail : tokenize (utf8 "Add r255 k255 r256") =
      head :: [first, second, misfit].map (·.token) := by decide +kernel
  rw [hdone, hfail]
  constructor
  · have hformats : [first, second, third].map (·.format) = Opcode.add.operands := rfl
    have hpacking := instruction_packing (d := readyDraft) rfl hname rfl rfl hformats
    obtain ⟨w, hw⟩ := hpacking.1.2 (by decide)
    exact ⟨w, hw, (hpacking.2.1 w hw).2.1 second (by simp)⟩
  · exact (instruction_packing rfl hname rfl rfl rfl).2.2 [first, second] misfit [] rfl (by decide)
      (by decide)

end Assembly

end LuaAssembly
