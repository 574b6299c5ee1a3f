import Mathlib
import LuaAssembly.Proofs.Source.Blame
import LuaAssembly.Proofs.Source.Lexing

/-!
# Where tokens stand does not matter

The assembler looks at the class and at the text of a token.  The position of a token is only
passed on to failures.  `Reading.Alike` says that two readings go on in the same way when they are
fed with tokens of the same classes and texts, and the assembler is alike to itself.  So source
with the same tokens in another layout gives the same chunk, or fails for the same reason.
-/
namespace LuaAssembly

/-- The failure without its position. -/
def Failure.bare : Failure → Failure
  | .error e => .error ⟨.none, e.cause⟩
  | .fault f => .fault ⟨.none, f.value⟩

/-- The same statement, apart from the position of a name. -/
inductive Statement.Alike : Statement → Statement → Prop where
  | refl (s : Statement) : Alike s s
  | function (name : Bytes) (p q : Position) : Alike (.function name p) (.function name q)

/-! ## Readings -/

namespace Reading

variable {α β : Type} {Q : α → α → Prop} {Q' : β → β → Prop}

/-- Fed with tokens that differ in their positions only, the two readings end with related values,
or fail for the same reason. -/
inductive Alike (Q : α → α → Prop) : Reading α → Reading α → Prop where
  | done {a b : α} (h : Q a b) : Alike Q (.done a) (.done b)
  | fail {e f : Failure} (h : e.bare = f.bare) : Alike Q (.fail e) (.fail f)
  | next {resume resume' : Token → Reading α}
    (h : ∀ t t', t.shape = t'.shape → Alike Q (resume t) (resume' t')) :
    Alike Q (.next resume) (.next resume')

theorem Alike.eq_done {r : Reading α} {a : α} (h : r.Alike (· = ·) (.done a)) : r = .done a := by
  cases h with
  | done h => rw [h]

/-- What is said of an argument by its class and its text is said of it anywhere. -/
theorem alike_argument {f : Token → Except Cause α} (hQ : ∀ a, Q a a)
    (hf : ∀ kind literal p q, f ⟨kind, literal, p⟩ = f ⟨kind, literal, q⟩) :
    (argument f).Alike Q (argument f) := by
  refine .next fun t t' ht => ?_
  obtain ⟨kind, literal, p⟩ := t
  obtain ⟨kind', literal', q⟩ := t'
  obtain ⟨rfl, rfl⟩ := Prod.mk.inj ht
  rw [hf kind literal p q]
  cases f ⟨kind, literal, q⟩ with
  | ok a => exact .done (hQ a)
  | error cause => exact .fail rfl

theorem Alike.andThen {r r' : Reading α} (h : r.Alike Q r') {f f' : α → Reading β}
    (hf : ∀ a b, Q a b → (f a).Alike Q' (f' b)) : (r.andThen f).Alike Q' (r'.andThen f') := by
  induction h with
  | done h => exact hf _ _ h
  | fail h => exact .fail h
  | next _ ih => exact .next fun t t' ht => ih t t' ht

theorem alike_argument_bind {f : Token → Except Cause α} {k : α → Reading β}
    (hf : ∀ kind literal p q, f ⟨kind, literal, p⟩ = f ⟨kind, literal, q⟩)
    (hk : ∀ a, (k a).Alike Q' (k a)) : (argument f >>= k).Alike Q' (argument f >>= k) :=
  (alike_argument (fun _ => rfl) hf).andThen fun a _ hab => hab ▸ hk a

end Reading

/-! ## Statements -/

namespace Head

open Reading

theorem alike_constantValue : constantValue.Alike (· = ·) constantValue := by
  refine .next fun t t' ht => ?_
  obtain ⟨kind, literal, p⟩ := t
  obtain ⟨kind', literal', q⟩ := t'
  obtain ⟨rfl, rfl⟩ := Prod.mk.inj ht
  simp only [Argument.string]
  split_ifs
  · cases Literal.unquote literal with
    | ok s => exact .done rfl
    | error problem => exact .fail rfl
  · cases Number.ofNumeral? literal with
    | some v => exact .done rfl
    | none => exact .fail rfl

theorem alike_operands (op : Opcode) (w : Word) (fs : List OperandFormat) :
    (operands op w fs).Alike (· = ·) (operands op w fs) := by
  induction fs generalizing w with
  | nil => exact .done rfl
  | cons f fs ih => exact alike_argument_bind (fun _ _ _ _ => rfl) fun v => ih _

theorem alike_function :
    (directiveArguments .function).Alike Statement.Alike (directiveArguments .function) := by
  refine .next fun t t' ht => ?_
  obtain ⟨kind, literal, p⟩ := t
  obtain ⟨kind', literal', q⟩ := t'
  obtain ⟨rfl, rfl⟩ := Prod.mk.inj ht
  have hname : Argument.name ⟨kind, literal, p⟩ = Argument.name ⟨kind, literal, q⟩ := rfl
  simp only [hname]
  cases Argument.name ⟨kind, literal, q⟩ with
  | ok name => exact .done (.function name p q)
  | error cause => exact .fail rfl

theorem alike_directiveArguments (d : Directive) :
    (directiveArguments d).Alike Statement.Alike (directiveArguments d) := by
  have hbyte : ∀ (dir : Directive) (make : UInt8 → Statement),
      (argument (Argument.byte dir) >>= fun v => pure (make v)).Alike Statement.Alike
        (argument (Argument.byte dir) >>= fun v => pure (make v)) :=
    fun dir make => alike_argument_bind (fun _ _ _ _ => rfl) fun v => .done (.refl _)
  have hinteger : ∀ make : Int → Statement,
      (argument Argument.integer >>= fun v => pure (make v)).Alike Statement.Alike
        (argument Argument.integer >>= fun v => pure (make v)) :=
    fun make => alike_argument_bind (fun _ _ _ _ => rfl) fun v => .done (.refl _)
  cases d with
  | function => exact alike_function
  | endianness => exact alike_argument_bind (fun _ _ _ _ => rfl) fun order => .done (.refl _)
  | source => exact alike_argument_bind (fun _ _ _ _ => rfl) fun s => .done (.refl _)
  | numberFormat => exact alike_argument_bind (fun _ _ _ _ => rfl) fun integral => hbyte _ _
  | constant =>
    exact alike_argument_bind (fun _ _ _ _ => rfl) fun _ =>
      alike_constantValue.andThen fun k _ hk => hk ▸ .done (.refl _)
  | localVar =>
    exact alike_argument_bind (fun _ _ _ _ => rfl) fun name =>
      alike_argument_bind (fun _ _ _ _ => rfl) fun first => hinteger _
  | upvalue =>
    exact alike_argument_bind (fun _ _ _ _ => rfl) fun name =>
      alike_argument_bind (fun _ _ _ _ => rfl) fun index =>
        alike_argument_bind (fun _ _ _ _ => rfl) fun inStack => .done (.refl _)
  | lineDefined => exact hinteger _
  | lastLineDefined => exact hinteger _
  | line => exact hinteger _
  | format => exact hbyte _ _
  | intSize => exact hbyte _ _
  | sizeTSize => exact hbyte _ _
  | instructionSize => exact hbyte _ _
  | numParams => exact hbyte _ _
  | isVararg => exact hbyte _ _
  | maxStackSize => exact hbyte _ _

theorem alike_arguments (head : Head) : head.arguments.Alike Statement.Alike head.arguments := by
  cases head with
  | directive d => exact alike_directiveArguments d
  | mnemonic op => exact (alike_operands op _ _).andThen fun w _ hw => hw ▸ .done (.refl _)

end Head

/-! ## The assembler -/

namespace Assembly

open Reading

/-- Statements that are the same, apart from positions, are carried out in the same way. -/
theorem alike_apply (d : Draft) {s s' : Statement} (h : s.Alike s') :
    Alike (· = ·)
      (match d.apply s with
        | .ok d => Reading.done d
        | .error e => .fail (.error e))
      (match d.apply s' with
        | .ok d => Reading.done d
        | .error e => .fail (.error e)) := by
  cases h with
  | refl s =>
    cases d.apply s with
    | ok d' => exact .done rfl
    | error e => exact .fail rfl
  | function name p q =>
    simp only [Draft.apply]
    cases d.declare name with
    | ok d' => exact .done rfl
    | error cause => exact .fail rfl

theorem alike_begin (d : Draft) {t t' : Token} (h : t.shape = t'.shape) :
    (begin d t).Alike (· = ·) (begin d t') := by
  obtain ⟨kind, literal, p⟩ := t
  obtain ⟨kind', literal', q⟩ := t'
  obtain ⟨rfl, rfl⟩ := Prod.mk.inj h
  have hhead : Head.ofToken? ⟨kind, literal, p⟩ = Head.ofToken? ⟨kind, literal, q⟩ := rfl
  rw [begin, begin, hhead]
  cases Head.ofToken? ⟨kind, literal, q⟩ with
  | none => exact .fail rfl
  | some head =>
    dsimp only
    cases d.objection? head with
    | some cause => exact .fail rfl
    | none => exact (Head.alike_arguments head).andThen fun s s' hs => alike_apply d hs

/-- One token keeps the assembler alike to itself. -/
theorem alike_feed {r r' : Reading Draft} (h : r.Alike (· = ·) r') {t t' : Token}
    (ht : t.shape = t'.shape) : (feed r t).Alike (· = ·) (feed r' t') := by
  cases h with
  | done h => exact h ▸ alike_begin _ ht
  | fail h => exact .fail h
  | next h => exact h t t' ht

theorem alike_foldl_feed {r r' : Reading Draft} (h : r.Alike (· = ·) r') {ts ts' : List Token}
    (hts : ts.map Token.shape = ts'.map Token.shape) :
    (ts.foldl feed r).Alike (· = ·) (ts'.foldl feed r') := by
  induction ts generalizing ts' r r' with
  | nil =>
    obtain rfl : ts' = [] := by simpa using hts.symm
    exact h
  | cons t ts ih =>
    obtain ⟨t', rest, rfl, ht, hrest⟩ := List.map_eq_cons_iff.1 hts.symm
    exact ih (alike_feed h ht.symm) hrest.symm

theorem alike_start : start.Alike (· = ·) start := by
  refine alike_argument_bind (fun _ _ _ _ => rfl) fun _ => ?_
  exact alike_argument_bind (fun _ _ _ _ => rfl) fun _ => .done rfl

end Assembly

/-- Source with the same tokens, wherever they stand, gives the same chunk or fails for the same
reason. -/
theorem parse_congr {source source' : Bytes}
    (h : (tokenize source).map Token.shape = (tokenize source').map Token.shape) :
    (parse source).mapError Failure.bare = (parse source').mapError Failure.bare := by
  have halike := Assembly.alike_foldl_feed Assembly.alike_start h
  rw [parse_eq, parse_eq]
  generalize (tokenize source).foldl Assembly.feed Assembly.start = r at halike ⊢
  generalize (tokenize source').foldl Assembly.feed Assembly.start = r' at halike ⊢
  cases halike with
  | fail h => exact congrArg Except.error h
  | next h => rfl
  | @done d d' h =>
    subst h
    cases hfinish : d.finish <;> simp only [Assembly.conclude, hfinish, Except.mapError]

end LuaAssembly
