import Mathlib
import LuaAssembly.Proofs.Source.Relisting

/-!
# What a parsed chunk is

Whatever the source, the chunk that it describes has a valid header, and every function of it can
be listed: its words are instructions, its integers have 32 bits, its constants are numbers and
strings, and there are not too many upvalues.  Each statement is shown to keep this of the draft,
by following its reading token by token, so it holds of every draft the assembler can reach.
-/
namespace LuaAssembly

namespace Reading

variable {α β : Type} {P : α → Prop} {Q : β → Prop}

/-- Whatever tokens complete the reading, the result has the property. -/
def Ensures (P : α → Prop) : Reading α → Prop
  | .done a => P a
  | .fail _ => True
  | .next resume => ∀ t, Ensures P (resume t)

theorem ensures_argument {f : Token → Except Cause α} (h : ∀ t a, f t = .ok a → P a) :
    (argument f).Ensures P := by
  intro t
  dsimp only
  split
  · exact h t _ ‹_›
  · trivial

theorem Ensures.andThen {r : Reading α} {f : α → Reading β} (h : r.Ensures P)
    (hf : ∀ a, P a → (f a).Ensures Q) : (r.andThen f).Ensures Q := by
  induction r with
  | done a => exact hf a h
  | fail e => trivial
  | next resume ih => exact fun t => ih t (h t)

theorem Ensures.imp {P' : α → Prop} {r : Reading α} (h : r.Ensures P) (hP : ∀ a, P a → P' a) :
    r.Ensures P' := by
  induction r with
  | done a => exact hP a h
  | fail e => trivial
  | next resume ih => exact fun t => ih t (h t)

/-- What is known of one argument is known of the rest of the reading. -/
theorem ensures_argument_bind {f : Token → Except Cause α} {k : α → Reading β}
    (h : ∀ t a, f t = .ok a → (k a).Ensures Q) : (argument f >>= k).Ensures Q :=
  (ensures_argument h).andThen fun _ ha => ha

end Reading

/-! ## Arguments -/

namespace Argument

variable {t : Token}

theorem isInt32_of_integer {v : Int} (h : integer t = .ok v) : IsInt32 v :=
  (integer_eq_ok_iff.1 h).2

/-- What is stored for an operand fits the slot of the operand. -/
theorem operand_bounds {op : Opcode} {f : OperandFormat} (hf : f ∈ OperandFormat.all) {v : Int}
    (h : operand op f t = .ok v) : 0 ≤ v ∧ v ≤ f.slot.field.max :=
  ((operand_eq_ok_iff hf).1 h).2

end Argument

/-! ## Statements -/

/-- The opcode and operands of an operation, in the order in which they are packed, set no bit
outside the opcode and the operands read so far. -/
theorem Head.ensures_operands {op : Opcode} {fs : List OperandFormat}
    (hfs : ∀ f ∈ fs, f ∈ op.operands) (w : Word) :
    (operands op w fs).Ensures fun w' => ∀ i, (w.getLsbD i → w'.getLsbD i) ∧
      (w'.getLsbD i → w.getLsbD i ∨ ∃ f ∈ fs, f.slot.field.Covers i) := by
  induction fs generalizing w with
  | nil => exact fun i => ⟨id, .inl⟩
  | cons f fs ih =>
    rw [List.forall_mem_cons] at hfs
    obtain ⟨hall, -, hwidth⟩ := op.operands_spec f hfs.1
    refine Reading.ensures_argument_bind fun t v hv => ?_
    have hbounds := Argument.operand_bounds hall hv
    refine (ih hfs.2 _).imp fun w' hw' i => ?_
    have hor := hw' i
    rw [BitVec.getLsbD_or, Bool.or_eq_true] at hor
    refine ⟨fun hi => hor.1 (.inl hi), fun hi => ?_⟩
    rcases hor.2 hi with (hi | hi) | ⟨g, hg, hi⟩
    · exact .inl hi
    · exact .inr ⟨f, List.mem_cons_self,
        Field.covers_of_getLsbD_encode hwidth hbounds.1 hbounds.2 hi⟩
    · exact .inr ⟨g, List.mem_cons_of_mem _ hg, hi⟩

/-- What is read behind a mnemonic is an instruction of its operation. -/
theorem Head.ensures_instruction (op : Opcode) :
    (operands op (Word.opcodeField.encode op.number) op.operands).Ensures
      fun w => w.IsInstructionOf op := by
  refine (ensures_operands (fun _ hf => hf) _).imp fun w hw => ⟨?_, fun i hi => ?_⟩
  · rw [Word.opcode?_eq_some_iff]
    intro i hi
    have hbits := hw i
    rw [Word.getLsbD_opcodeField_encode] at hbits
    refine Bool.eq_iff_iff.2 ⟨fun hbit => ?_, hbits.1⟩
    rcases hbits.2 hbit with hbit | ⟨f, hf, hcovers⟩
    · exact hbit
    · -- Operands are stored above the opcode.
      have := (op.operands_spec f hf).2.1
      have := hcovers.1
      omega
  · refine ((hw i).2 hi).imp_left fun hbit => ?_
    rw [Word.getLsbD_opcodeField_encode] at hbit
    exact ⟨Nat.zero_le i, by simpa [Word.opcodeField] using op.lt_six_of_testBit hbit⟩

/-- What the statement adds to a function can be listed.  An upvalue stands only behind its own
directive. -/
def Statement.Proper (head : Head) : Statement → Prop
  | .lineDefined v | .lastLineDefined v | .line v => IsInt32 v
  | .constant k => k.IsExact
  | .localVar x => IsInt32 x.first ∧ IsInt32 x.last
  | .upvalue x => IsInt32 x.index ∧ head = .directive .upvalue
  | .instruction w => w.IsInstruction
  | _ => True

theorem Head.ensures_constantValue : constantValue.Ensures Constant.IsExact := by
  intro t
  dsimp only
  split_ifs
  · split
    · exact .inr rfl
    · trivial
  · split
    · exact .inl ⟨rfl, Number.eq_nan_of_ofNumeral? ‹_›⟩
    · trivial

/-- The arguments of a statement make it a proper one. -/
theorem Head.ensures_arguments (head : Head) : head.arguments.Ensures (Statement.Proper head) := by
  have hinteger : ∀ {f : Int → Statement}, (∀ v, IsInt32 v → (f v).Proper head) →
      (do return f (← .argument Argument.integer) : Reading Statement).Ensures
        (Statement.Proper head) := by
    intro f hf
    exact Reading.ensures_argument_bind fun t v hv => hf v (Argument.isInt32_of_integer hv)
  -- Directives whose arguments are names and bytes leave nothing to show.
  cases head with
  | mnemonic op => exact (ensures_instruction op).andThen fun w hw => ⟨op, hw⟩
  | directive d =>
    cases d with
    | lineDefined => exact hinteger fun v hv => hv
    | lastLineDefined => exact hinteger fun v hv => hv
    | line => exact hinteger fun v hv => hv
    | constant =>
      refine Reading.ensures_argument_bind fun t _ _ => ?_
      exact ensures_constantValue.andThen fun k hk => hk
    | localVar =>
      refine Reading.ensures_argument_bind fun _ name _ => ?_
      refine Reading.ensures_argument_bind fun _ first hfirst => ?_
      refine Reading.ensures_argument_bind fun _ last hlast => ?_
      exact ⟨Argument.isInt32_of_integer hfirst, Argument.isInt32_of_integer hlast⟩
    | upvalue =>
      refine Reading.ensures_argument_bind fun _ name _ => ?_
      refine Reading.ensures_argument_bind fun _ index hindex => ?_
      refine Reading.ensures_argument_bind fun _ inStack _ => ?_
      exact ⟨Argument.isInt32_of_integer hindex, rfl⟩
    | numberFormat =>
      refine Reading.ensures_argument_bind fun _ integral _ => ?_
      exact Reading.ensures_argument_bind fun _ size _ => trivial
    | function =>
      refine Reading.ensures_argument fun t st hst => ?_
      cases hname : Argument.name t with
      | error cause => rw [hname] at hst; cases hst
      | ok name => rw [hname] at hst; cases hst; trivial
    | _ => exact Reading.ensures_argument_bind fun _ _ _ => trivial

/-! ## Drafts -/

/-- What is known of the function so far can be listed. -/
structure FunctionDraft.Proper (f : FunctionDraft) : Prop where
  lineDefined : ∀ v ∈ f.lineDefined, IsInt32 v
  lastLineDefined : ∀ v ∈ f.lastLineDefined, IsInt32 v
  code : ∀ w ∈ f.code, w.IsInstruction
  constants : ∀ k ∈ f.constants, k.IsExact
  lines : ∀ v ∈ f.lines, IsInt32 v
  locals : ∀ x ∈ f.locals, IsInt32 x.first ∧ IsInt32 x.last
  upvalues : ∀ x ∈ f.upvalues, IsInt32 x.index
  upvalueCount : f.upvalues.length ≤ upvalueLimit

namespace FunctionDraft

theorem proper_declared (name : Bytes) (parent : Option Nat) : (declared name parent).Proper := by
  constructor <;> simp [declared]

theorem forall_mem_concat {α : Type} {P : α → Prop} {xs : List α} {x : α} (hxs : ∀ y ∈ xs, P y)
    (hx : P x) : ∀ y ∈ xs ++ [x], P y := by
  simpa [or_imp, forall_and] using ⟨hxs, hx⟩

theorem Proper.apply {f : FunctionDraft} (hf : f.Proper) {head : Head} {st : Statement}
    (hst : st.Proper head)
    (hroom : head = .directive .upvalue → f.upvalues.length < upvalueLimit) :
    (f.apply st).Proper := by
  cases st with
  | lineDefined v => exact { hf with lineDefined := fun _ hv => Option.some.inj hv ▸ hst }
  | lastLineDefined v => exact { hf with lastLineDefined := fun _ hv => Option.some.inj hv ▸ hst }
  | constant k => exact { hf with constants := forall_mem_concat hf.constants hst }
  | line v => exact { hf with lines := forall_mem_concat hf.lines hst }
  | localVar x => exact { hf with locals := forall_mem_concat hf.locals hst }
  | upvalue x =>
    refine { hf with upvalues := forall_mem_concat hf.upvalues hst.1, upvalueCount := ?_ }
    simpa [FunctionDraft.apply] using hroom hst.2
  | instruction w => exact { hf with code := forall_mem_concat hf.code hst }
  | _ => exact { hf with }

theorem eq_ofPrototype_of_finish {f : FunctionDraft} {p : Prototype} (h : f.finish = .ok p) :
    f = .ofPrototype f.name f.parent p := by
  obtain ⟨name, parent, source, lineDefined, lastLineDefined, numParams, isVararg, maxStackSize,
    code, constants, lines, locals, upvalues⟩ := f
  -- Whatever is missing, there is no prototype.
  cases source with
  | none => cases h
  | some _ =>
  cases lineDefined with
  | none => cases h
  | some _ =>
  cases lastLineDefined with
  | none => cases h
  | some _ =>
  cases numParams with
  | none => cases h
  | some _ =>
  cases isVararg with
  | none => cases h
  | some _ =>
  cases maxStackSize with
  | none => cases h
  | some _ =>
  cases h
  rfl

/-- A function of which nothing is missing any more can be listed. -/
theorem Proper.finish {f : FunctionDraft} (hf : f.Proper) {p : Prototype} (h : f.finish = .ok p) :
    p.Listable ∧ ∀ k ∈ p.constants, k.IsExact := by
  rw [eq_ofPrototype_of_finish h] at hf
  refine ⟨⟨hf.lineDefined _ rfl, hf.lastLineDefined _ rfl, hf.code, ?_, hf.lines, hf.locals,
    hf.upvalues, hf.upvalueCount⟩, hf.constants⟩
  exact fun k hk => (hf.constants k hk).tag

end FunctionDraft

namespace Draft

/-- All functions so far can be listed. -/
def Proper (d : Draft) : Prop :=
  ∀ f ∈ d.functions, f.Proper

/-- The function has room for one more upvalue when there is no objection to the directive. -/
theorem upvalues_lt {d : Draft} {f : FunctionDraft} (hcurrent : d.current = some f)
    (hf : f.Proper) (h : d.objection? (.directive .upvalue) = none) :
    f.upvalues.length < FunctionDraft.upvalueLimit := by
  have hne : f.upvalues.length ≠ FunctionDraft.upvalueLimit := by
    intro heq
    simp [objection?, hcurrent, Directive.kind, FunctionDraft.objection?, heq] at h
  exact lt_of_le_of_ne hf.upvalueCount hne

/-- A proper statement to which there is no objection keeps the draft proper. -/
theorem Proper.apply {d d' : Draft} (hd : d.Proper) {head : Head} {st : Statement}
    (hst : st.Proper head) (hobjection : d.objection? head = none) (h : d.apply st = .ok d') :
    d'.Proper := by
  -- Any statement but a declaration changes the current function only.
  have hother : ∀ {st : Statement}, st.Proper head →
      Proper { d with header := d.header.apply st, current := d.current.map (·.apply st) } := by
    intro st hst f hf
    rcases List.mem_append.1 hf with hf | hf
    · exact hd f (List.mem_append_left _ hf)
    · cases hcurrent : d.current with
      | none => simp [hcurrent] at hf
      | some g =>
        have hg : g.Proper := hd g (List.mem_append_right _ (by simp [hcurrent]))
        obtain rfl : f = g.apply st := by simpa [hcurrent] using hf
        refine hg.apply hst ?_
        rintro rfl
        exact upvalues_lt hcurrent hg hobjection
  cases st with
  | function name pos =>
    cases hparent : parentOf d.functions name with
    | error cause =>
      simp only [Draft.apply, declare, hparent, Except.map] at h
      cases h
    | ok parent =>
      simp only [Draft.apply, declare, hparent, Except.map] at h
      cases h
      intro f hf
      rcases List.mem_append.1 hf with hf | hf
      · exact hd f hf
      · rw [Option.toList_some, List.mem_singleton] at hf
        rw [hf]
        exact FunctionDraft.proper_declared name parent
  | _ => cases h; exact hother hst

/-- Every function of the tree is one of the functions of the draft. -/
theorem every_tree {P : FunctionDraft → Prop} {d : Draft} (h : ∀ f ∈ d.functions, P f)
    (hne : d.functions ≠ []) : d.tree.Every fun f _ => P f := by
  -- The trees are put together from the last declaration to the first.
  have hgather : ∀ (fs : List FunctionDraft) (i : Nat), (∀ f ∈ fs, P f) →
      ∀ t ∈ (number i fs).foldr gather [], t.tree.Every fun f _ => P f := by
    intro fs
    induction fs with
    | nil => simp [number]
    | cons f fs ih =>
      intro i hfs t ht
      rw [List.forall_mem_cons] at hfs
      have hlater := ih (i + 1) hfs.2
      rw [number, List.foldr_cons, gather, List.partition_eq_filter_filter] at ht
      rcases List.mem_cons.1 ht with rfl | ht
      · refine .node hfs.1 fun u hu => ?_
        obtain ⟨t, ht, rfl⟩ := List.mem_map.1 hu
        exact hlater t (List.mem_of_mem_filter ht)
      · exact hlater t (List.mem_of_mem_filter ht)
  rw [tree]
  split
  · rename_i hnil
    cases hfs : d.functions with
    | nil => exact absurd hfs hne
    | cons f fs => simp [hfs, number, gather] at hnil
  · rename_i t ts hcons
    exact hgather d.functions 0 h t (by rw [hcons]; exact List.mem_cons_self)

end Draft

namespace Assembly

/-- Each token keeps the drafts that can still be reached proper. -/
theorem ensures_feed {r : Reading Draft} (h : r.Ensures Draft.Proper) (t : Token) :
    (feed r t).Ensures Draft.Proper := by
  cases r with
  | fail failure => trivial
  | next resume => exact h t
  | done d =>
    rw [feed, begin]
    split
    · trivial
    · split
      · trivial
      · refine (Head.ensures_arguments _).andThen fun st hst => ?_
        split
        · exact Draft.Proper.apply h hst ‹_› ‹_›
        · trivial

theorem ensures_foldl_feed {r : Reading Draft} (h : r.Ensures Draft.Proper) (ts : List Token) :
    (ts.foldl feed r).Ensures Draft.Proper := by
  induction ts generalizing r with
  | nil => exact h
  | cons t ts ih => exact ih (ensures_feed h t)

theorem ensures_start : start.Ensures Draft.Proper := by
  refine Reading.ensures_argument_bind fun _ _ _ => ?_
  refine Reading.ensures_argument_bind fun _ _ _ => ?_
  intro f hf
  cases hf

end Assembly

/-- Every parsed chunk has a valid header, and its functions can be listed without loss. -/
theorem parse_proper {source : Bytes} {c : Chunk} (h : parse source = .ok c) :
    c.header.validate = .ok () ∧
      c.main.Every fun p _ => p.Listable ∧ ∀ k ∈ p.constants, k.IsExact := by
  have hdraft := Assembly.ensures_foldl_feed Assembly.ensures_start (lex source).tokens
  rw [parse] at h
  cases hr : (lex source).tokens.foldl Assembly.feed Assembly.start with
  | fail failure => rw [hr] at h; cases h
  | next resume => rw [hr] at h; cases h
  | done d =>
    rw [hr] at h hdraft
    cases hfinish : d.finish with
    | error cause => simp only [Assembly.conclude, hfinish] at h; cases h
    | ok chunk =>
      simp only [Assembly.conclude, hfinish] at h
      cases h
      obtain ⟨-, hne, hvalid, htree⟩ := Draft.finish_eq_ok_iff.1 hfinish
      refine ⟨hvalid, (Draft.every_tree hdraft hne).traverse ?_ htree⟩
      exact fun f p hf hp => hf.finish hp

end LuaAssembly
