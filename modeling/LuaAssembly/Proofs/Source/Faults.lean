import Mathlib
import LuaAssembly.Proofs.Source.Numbered

/-!
# Faults

A fault is the one failure of the assembler that is not an error in the source.  It comes from a
constant whose value is a word that is no number, and from nothing else: `FaultyConstant` says where
such a constant stands.  All else that could go wrong inside the assembler is a site of the
assembler by number, and that one gets to none.
-/
namespace LuaAssembly

/-! ## Classes of tokens -/

namespace LexMode

variable {mode : LexMode} {t : Token}

theorem kind_of_finish (h : mode.finish = some t) : t.kind = .word ∨ t.kind = .string := by
  cases mode with
  | gap => cases h
  | comment => cases h
  | word start read =>
    cases h
    exact .inl rfl
  | literal start read escaped =>
    cases h
    exact .inr rfl

theorem kind_of_step {p : Position} {b : UInt8} (h : (mode.step p b).1 = some t) :
    t.kind = .word ∨ t.kind = .string := by
  cases mode with
  | gap => cases h
  | comment => cases h
  | word start read =>
    rw [step] at h
    split_ifs at h
    cases h
    exact .inl rfl
  | literal start read escaped =>
    rw [step] at h
    split_ifs at h
    · cases h
      exact .inr rfl
    · cases h
      exact .inr rfl

end LexMode

theorem kind_of_mem_tokensFrom {p : Position} {mode : LexMode} {rest : Bytes} {t : Token}
    (h : t ∈ tokensFrom p mode rest) : t.kind = .word ∨ t.kind = .string := by
  induction rest generalizing p mode with
  | nil => exact LexMode.kind_of_finish (Option.mem_toList.1 h)
  | cons b rest ih =>
    rw [tokensFrom, List.mem_append, Option.mem_toList] at h
    exact h.elim LexMode.kind_of_step ih

/-- Source has words and literals only. -/
theorem kind_of_mem_tokenize {source : Bytes} {t : Token} (h : t ∈ tokenize source) :
    t.kind = .word ∨ t.kind = .string := by
  rw [tokenize_eq] at h
  exact kind_of_mem_tokensFrom h

/-! ## Tokens that end a reading -/

namespace Reading

variable {α β : Type} {ts : List Token} {e : Failure} {fault : Fault}

/-- The tokens, all of them, end the reading with the failure. -/
def BreaksOff : Reading α → List Token → Failure → Prop
  | .fail e, [], e' => e = e'
  | .next resume, t :: ts, e => (resume t).BreaksOff ts e
  | _, _, _ => False

@[simp] theorem breaksOff_fail {e' : Failure} :
    (fail e : Reading α).BreaksOff ts e' ↔ ts = [] ∧ e = e' := by
  cases ts <;> simp [BreaksOff]

@[simp] theorem not_breaksOff_done {a : α} : ¬(done a).BreaksOff ts e := by
  cases ts <;> simp [BreaksOff]

@[simp] theorem breaksOff_next {resume : Token → Reading α} :
    (next resume).BreaksOff ts e ↔ ∃ t rest, ts = t :: rest ∧ (resume t).BreaksOff rest e := by
  cases ts <;> simp [BreaksOff]

theorem breaksOff_andThen {r : Reading α} {f : α → Reading β} :
    (r.andThen f).BreaksOff ts e ↔
      r.BreaksOff ts e ∨ ∃ a us vs, ts = us ++ vs ∧ r.Completes us a ∧ (f a).BreaksOff vs e := by
  induction r generalizing ts with
  | done a => simp
  | fail e' => simp
  | next resume ih =>
    simp only [andThen_next, breaksOff_next, completes_next, ih]
    constructor
    · rintro ⟨t, rest, rfl, h | ⟨a, us, vs, rfl, hus, hvs⟩⟩
      · exact .inl ⟨t, rest, rfl, h⟩
      · exact .inr ⟨a, t :: us, vs, rfl, ⟨t, us, rfl, hus⟩, hvs⟩
    · rintro (⟨t, rest, rfl, h⟩ | ⟨a, _, vs, rfl, ⟨t, us, rfl, hus⟩, hvs⟩)
      · exact ⟨t, rest, rfl, .inl h⟩
      · exact ⟨t, us ++ vs, rfl, .inr ⟨a, us, vs, rfl, hus, hvs⟩⟩

/-- An argument is refused with an error, so a fault comes later. -/
theorem faults_argument_bind {f : Token → Except Cause α} {k : α → Reading β} :
    (argument f >>= k).BreaksOff ts (.fault fault) ↔
      ∃ t rest a, ts = t :: rest ∧ f t = .ok a ∧ (k a).BreaksOff rest (.fault fault) := by
  have hargument : ¬(argument f).BreaksOff ts (.fault fault) := by
    rw [argument, breaksOff_next]
    rintro ⟨t, rest, rfl, h⟩
    cases ht : f t <;> simp [ht, Reading.error] at h
  show ((argument f).andThen k).BreaksOff ts _ ↔ _
  simp only [breaksOff_andThen, hargument, false_or, completes_argument]
  constructor
  · rintro ⟨a, _, rest, rfl, ⟨t, rfl, ht⟩, hrest⟩
    exact ⟨t, rest, a, rfl, ht, hrest⟩
  · rintro ⟨t, rest, a, rfl, ht, hrest⟩
    exact ⟨a, [t], rest, rfl, ⟨t, rfl, ht⟩, hrest⟩

theorem not_faults_argument_bind {f : Token → Except Cause α} {k : α → Reading β}
    (hk : ∀ a ts, ¬(k a).BreaksOff ts (.fault fault)) :
    ¬(argument f >>= k).BreaksOff ts (.fault fault) := by
  rw [faults_argument_bind]
  rintro ⟨t, rest, a, -, -, h⟩
  exact hk a rest h

end Reading

/-! ## Statements -/

namespace Head

open Reading

variable {ts : List Token} {fault : Fault}

theorem faults_constantValue_iff :
    constantValue.BreaksOff ts (.fault fault) ↔
      ∃ t, ts = [t] ∧ t.kind ≠ .string ∧ Number.ofNumeral? t.literal = none ∧
        fault = ⟨t.pos, t.literal⟩ := by
  rw [constantValue, breaksOff_next]
  constructor
  · rintro ⟨t, rest, rfl, h⟩
    split_ifs at h with hk
    · cases hs : Argument.string t <;> simp [hs, Reading.error] at h
    · cases hv : Number.ofNumeral? t.literal with
      | some v => simp [hv] at h
      | none =>
        obtain ⟨rfl, rfl⟩ : rest = [] ∧ (⟨t.pos, t.literal⟩ : Fault) = fault := by
          simpa [hv] using h
        exact ⟨t, rfl, hk, hv, rfl⟩
  · rintro ⟨t, rfl, hk, hv, rfl⟩
    exact ⟨t, [], rfl, by simp [hk, hv]⟩

theorem not_faults_operands (op : Opcode) (w : Word) (fs : List OperandFormat) (ts : List Token) :
    ¬(operands op w fs).BreaksOff ts (.fault fault) := by
  induction fs generalizing w ts with
  | nil => exact not_breaksOff_done
  | cons f fs ih => exact not_faults_argument_bind fun v rest => ih _ rest

theorem not_faults_of_ne {dir : Directive} (hdir : dir ≠ .constant) :
    ¬(directiveArguments dir).BreaksOff ts (.fault fault) := by
  have hdone : ∀ (s : Statement) (ts : List Token),
      ¬(pure s : Reading Statement).BreaksOff ts (.fault fault) :=
    fun _ _ => not_breaksOff_done
  cases dir with
  | constant => exact absurd rfl hdir
  | function =>
    rw [directiveArguments, argument, breaksOff_next]
    rintro ⟨t, rest, rfl, h⟩
    cases hname : Argument.name t <;> simp [hname, Except.map, Reading.error] at h
  | numberFormat =>
    exact not_faults_argument_bind fun _ _ => not_faults_argument_bind fun _ => hdone _
  | localVar =>
    refine not_faults_argument_bind fun _ _ => not_faults_argument_bind fun _ _ => ?_
    exact not_faults_argument_bind fun _ => hdone _
  | upvalue =>
    refine not_faults_argument_bind fun _ _ => not_faults_argument_bind fun _ _ => ?_
    exact not_faults_argument_bind fun _ => hdone _
  | _ => exact not_faults_argument_bind fun _ => hdone _

theorem faults_constant_iff :
    (directiveArguments .constant).BreaksOff ts (.fault fault) ↔
      ∃ name value label, ts = [name, value] ∧ name.IsName label ∧ value.kind ≠ .string ∧
        Number.ofNumeral? value.literal = none ∧ fault = ⟨value.pos, value.literal⟩ := by
  have hvalue : ∀ rest, (do return .constant (← constantValue) : Reading Statement).BreaksOff rest
      (.fault fault) ↔ constantValue.BreaksOff rest (.fault fault) := by
    intro rest
    show (constantValue.andThen fun k => .done (Statement.constant k)).BreaksOff rest _ ↔ _
    simp [breaksOff_andThen]
  rw [directiveArguments, faults_argument_bind]
  simp only [hvalue, faults_constantValue_iff, Argument.name_eq_ok_iff]
  constructor
  · rintro ⟨name, _, label, rfl, hname, value, rfl, h⟩
    exact ⟨name, value, label, rfl, hname, h⟩
  · rintro ⟨name, value, label, rfl, hname, h⟩
    exact ⟨name, _, label, rfl, hname, value, rfl, h⟩

end Head

/-! ## Runs -/

namespace Assembly

open Reading

variable {d : Draft} {ts : List Token} {e : Failure} {fault : Fault}

/-- Carrying out a statement adds no fault to those of its arguments. -/
theorem faults_carryOut_iff {head : Head} :
    (carryOut d head).BreaksOff ts (.fault fault) ↔
      head.arguments.BreaksOff ts (.fault fault) := by
  rw [carryOut, breaksOff_andThen]
  refine or_iff_left ?_
  rintro ⟨s, us, vs, -, -, h⟩
  cases hd : d.apply s <;> simp [hd] at h

theorem objection?_constant : d.objection? (.directive .constant) = none ↔ d.current.isSome := by
  cases hf : d.current <;> simp [Draft.objection?, Directive.kind, FunctionDraft.objection?, hf]

/-- A statement ends in a fault only if it is a constant inside a function. -/
theorem faults_begin_iff {t : Token} :
    (begin d t).BreaksOff ts (.fault fault) ↔
      t.literal = Directive.constant.token ∧ d.current.isSome ∧
        (Head.directiveArguments .constant).BreaksOff ts (.fault fault) := by
  rw [begin_eq]
  constructor
  · intro h
    cases hhead : Head.ofToken? t with
    | none => simp [hhead, Reading.error] at h
    | some head =>
    cases hobjection : d.objection? head with
    | some cause => simp [hhead, hobjection, unlessBarred, Reading.error] at h
    | none =>
    simp only [hhead, hobjection, unlessBarred, faults_carryOut_iff] at h
    cases head with
    | mnemonic op =>
      rcases breaksOff_andThen.1 h with h | ⟨w, us, vs, -, -, h⟩
      · exact absurd h (Head.not_faults_operands op _ _ ts)
      · exact absurd h not_breaksOff_done
    | directive dir =>
      by_cases hdir : dir = .constant
      · subst hdir
        exact ⟨Head.ofToken?_eq_directive_iff.1 hhead, objection?_constant.1 hobjection, h⟩
      · exact absurd h (Head.not_faults_of_ne hdir)
  · rintro ⟨ht, hcurrent, h⟩
    simp only [Head.ofToken?_eq_directive_iff.2 ht, objection?_constant.2 hcurrent,
      unlessBarred, faults_carryOut_iff]
    exact h

theorem foldl_feed_eq_fail_iff {r : Reading Draft} :
    ts.foldl feed r = .fail e ↔ (∃ us vs, ts = us ++ vs ∧ r.BreaksOff us e) ∨
      ∃ us vs d, ts = us ++ vs ∧ r.Completes us d ∧ vs.foldl feed (.done d) = .fail e := by
  induction r generalizing ts with
  | done d => simp
  | fail e' => simp [foldl_feed_fail]
  | next resume ih =>
    cases ts with
    | nil => simp
    | cons t ts =>
      rw [List.foldl_cons, feed, ih]
      simp only [completes_next, breaksOff_next]
      constructor
      · rintro (⟨us, vs, rfl, hus⟩ | ⟨us, vs, d, rfl, hus, hvs⟩)
        · exact .inl ⟨t :: us, vs, rfl, t, us, rfl, hus⟩
        · exact .inr ⟨t :: us, vs, d, rfl, ⟨t, us, rfl, hus⟩, hvs⟩
      · rintro (⟨_, vs, hts, t, us, rfl, hus⟩ | ⟨_, vs, d, hts, ⟨t, us, rfl, hus⟩, hvs⟩)
        · obtain ⟨rfl, rfl⟩ := List.cons.inj hts
          exact .inl ⟨us, vs, rfl, hus⟩
        · obtain ⟨rfl, rfl⟩ := List.cons.inj hts
          exact .inr ⟨us, vs, d, rfl, hus, hvs⟩

/-- Between statements, tokens end in a failure exactly when some statement does, after others that
are carried out. -/
theorem foldl_feed_done_eq_fail_iff :
    ts.foldl feed (.done d) = .fail e ↔ ∃ before head args after ss d',
      ts = before ++ head :: (args ++ after) ∧ Spelled before ss ∧ d.Reaches ss d' ∧
        (begin d' head).BreaksOff args e := by
  constructor
  · intro h
    -- Each phrase is at least one token, so the rest is shorter.
    induction hlength : ts.length using Nat.strong_induction_on generalizing ts d with
    | _ n ih =>
      cases ts with
      | nil => cases h
      | cons t ts =>
        rw [List.foldl_cons, feed] at h
        rcases foldl_feed_eq_fail_iff.1 h with ⟨us, vs, rfl, hus⟩ | ⟨us, vs, d₁, rfl, hus, hvs⟩
        · exact ⟨[], t, us, vs, [], d, rfl, .nil, .nil d, hus⟩
        · obtain ⟨s, hs, hallows, happly⟩ := completes_begin_iff.1 hus
          obtain ⟨before, head, args, after, ss, d', rfl, hss, hreach, hhead⟩ :=
            ih vs.length (by simp at hlength; omega) hvs rfl
          exact ⟨t :: us ++ before, head, args, after, s :: ss, d', by simp, .cons hs hss,
            .cons hallows happly hreach, hhead⟩
  · rintro ⟨before, head, args, after, ss, d', rfl, hss, hreach, hhead⟩
    rw [List.foldl_append, foldl_feed_done_iff.2 ⟨ss, hss, hreach⟩, List.foldl_cons, feed]
    exact foldl_feed_eq_fail_iff.2 (.inl ⟨args, after, rfl, hhead⟩)

theorem not_faults_start : ¬start.BreaksOff ts (.fault fault) :=
  not_faults_argument_bind fun _ _ => not_faults_argument_bind fun _ _ => not_breaksOff_done

end Assembly

/-- The tokens come to a constant that is no constant: the statements before it are carried out,
it stands inside a function and has a name, but its value is a word that is no number. -/
inductive FaultyConstant : List Token → Fault → Prop where
  | intro {before after : List Token} {head name value : Token} {ss : List Statement} {d : Draft}
    {label : Bytes} (hbefore : Opened before ss) (hreach : Draft.empty.Reaches ss d)
    (hcurrent : d.current.isSome) (hhead : head.literal = Directive.constant.token)
    (hname : name.IsName label) (hword : value.kind = .word)
    (hvalue : Number.ofNumeral? value.literal = none) :
    FaultyConstant (before ++ head :: name :: value :: after) ⟨value.pos, value.literal⟩

namespace Assembly

open Reading

variable {ts : List Token} {fault : Fault}

/-- The version is read without a fault, and so are the statements before the one that ends in
one. -/
theorem faultyConstant_of_foldl_feed (hts : ∀ t ∈ ts, t.kind = .word ∨ t.kind = .string)
    (h : ts.foldl feed start = .fail (.fault fault)) : FaultyConstant ts fault := by
  rcases foldl_feed_eq_fail_iff.1 h with ⟨us, vs, -, hus⟩ | ⟨us, vs, d₀, rfl, hus, hvs⟩
  · exact absurd hus not_faults_start
  · obtain ⟨v, n, rfl, hv, hn, rfl⟩ := completes_start_iff.1 hus
    obtain ⟨before, head, args, after, ss, d, rfl, hss, hreach, hhead⟩ :=
      foldl_feed_done_eq_fail_iff.1 hvs
    obtain ⟨hconstant, hcurrent, hargs⟩ := faults_begin_iff.1 hhead
    obtain ⟨name, value, label, rfl, hname, hkind, hvalue, rfl⟩ :=
      Head.faults_constant_iff.1 hargs
    have hword : value.kind = .word := (hts value (by simp)).resolve_right hkind
    have hopened : Opened (v :: n :: before) ss := .intro hv hn hss
    exact .intro hopened hreach hcurrent hconstant hname hword hvalue

theorem foldl_feed_of_faultyConstant (h : FaultyConstant ts fault) :
    ts.foldl feed start = .fail (.fault fault) := by
  obtain ⟨hbefore, hreach, hcurrent, hhead, hname, hword, hvalue⟩ := h
  rename_i before after head name value ss d label
  have hbreaks : (begin d head).BreaksOff [name, value] (.fault ⟨value.pos, value.literal⟩) := by
    refine faults_begin_iff.2 ⟨hhead, hcurrent, Head.faults_constant_iff.2 ?_⟩
    exact ⟨name, value, label, rfl, hname, by rw [hword]; decide, hvalue, rfl⟩
  rw [List.foldl_append, foldl_feed_start_iff.2 ⟨ss, hbefore, hreach⟩, List.foldl_cons, feed]
  exact foldl_feed_eq_fail_iff.2 (.inl ⟨[name, value], after, rfl, hbreaks⟩)

/-- At the end of the source only errors are found. -/
theorem conclude_eq_fault_iff {stop : Position} {r : Reading Draft} :
    conclude stop r = .error (.fault fault) ↔ r = .fail (.fault fault) := by
  cases r with
  | fail e => simp [conclude]
  | next resume => simp [conclude]
  | done d => cases hfinish : d.finish <;> simp [conclude, hfinish]

end Assembly

/-- Every source text is assembled, has an error, or ends in a fault, and the assembler gets to none
of its other sites.  There is a fault exactly if the source comes to a faulty constant. -/
theorem parse_fault_iff (source : Bytes) :
    Numbered.parse source = .ok (parse source) ∧
      ((∃ chunk, parse source = .ok chunk) ∨ (∃ e, parse source = .error (.error e)) ∨
        ∃ fault, parse source = .error (.fault fault)) ∧
      ∀ fault, parse source = .error (.fault fault) ↔ FaultyConstant (tokenize source) fault := by
  refine ⟨Numbered.parse_eq source, ?_, fun fault => ?_⟩
  · rcases parse source with (e | fault) | chunk
    · exact .inr (.inl ⟨e, rfl⟩)
    · exact .inr (.inr ⟨fault, rfl⟩)
    · exact .inl ⟨chunk, rfl⟩
  · rw [parse_eq, Assembly.conclude_eq_fault_iff]
    exact ⟨Assembly.faultyConstant_of_foldl_feed fun t => kind_of_mem_tokenize,
      Assembly.foldl_feed_of_faultyConstant⟩

example : parse (utf8 ".version 5.1 .function f .constant k 1e999") =
    .error (.fault ⟨⟨37, 1, 38⟩, utf8 "1e999"⟩) := by
  decide +kernel

end LuaAssembly
