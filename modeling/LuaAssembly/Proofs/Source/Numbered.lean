import Mathlib
import LuaAssembly.Proofs.Source.Exchange

/-!
# Assembling by number

In a draft each function knows the function that it is nested in.  Here the same assembler works on
a table, in which functions go by their numbers: each has the numbers of its children, and there
are the numbers of the main function and of the current one.  Now a number may be that of no
function.  Likewise, where the assembler chooses by the kind of a directive, by a directive or by
the format of an operand, there is a last case for what has no rule, and an opcode may be too large
for its field.  Each of these is a `Site`, and the assembler stops when it gets to one.

`Numbered.parse_eq` says that it never does: on every source it ends as `parse` does.
-/
namespace LuaAssembly

/-! ## One statement -/

/-- The reading, unless there is an objection to it. -/
def Reading.unlessBarred {α : Type} (objection : Option Cause) (pos : Position) (r : Reading α) :
    Reading α :=
  match objection with
  | some cause => .error pos cause
  | none => r

namespace Assembly

/-- Reads the arguments of a statement and carries it out. -/
def carryOut (d : Draft) (head : Head) : Reading Draft :=
  head.arguments.andThen fun s =>
    match d.apply s with
    | .ok d => .done d
    | .error e => .fail (.error e)

theorem begin_eq (d : Draft) (t : Token) : begin d t =
    match Head.ofToken? t with
    | none => .error t.pos (.unexpectedToken t.literal)
    | some head => .unlessBarred (d.objection? head) t.pos (carryOut d head) := rfl

end Assembly

namespace Numbered

/-- A place where the assembler has no rule for what it finds. -/
inductive Site where
  | kind (number : Nat)
  /-- A directive about the header that sets no field of it. -/
  | headerDirective (dir : Directive)
  /-- A directive about the current function that is none for functions. -/
  | functionDirective (dir : Directive)
  /-- An operation whose number is too large for the opcode field. -/
  | opcode (op : Opcode)
  /-- An operand format that is not in use. -/
  | operandFormat (f : OperandFormat)
  /-- A number that no function has. -/
  | functionNumber (i : Nat)
  /-- A function with more levels of functions in it than there are functions. -/
  | endless (i : Nat)
  deriving DecidableEq

/-! ## Directives and instructions -/

/-- Reads something and may get to a site. -/
abbrev Step := ExceptT Site Reading

section

variable {α : Type}

/-- A reading that gets to no site. -/
def read (r : Reading α) : Step α :=
  ExceptT.lift r

/-- Reads one token with a given meaning. -/
def argument (f : Token → Except Cause α) : Step α :=
  read (.argument f)

/-- Fails with an error at a position. -/
def error (pos : Position) (cause : Cause) : Step α :=
  read (.error pos cause)

/-- A value that is there already must not be set again. -/
def unlessSet (value : Option α) (dir : Directive) (t : Token) : Step Unit :=
  if value.isSome then error t.pos (.duplicate dir) else pure ()

end

/-- Reads the arguments of a directive about the header and carries it out. -/
def headerDirective (h : HeaderDraft) (dir : Directive) (t : Token) : Step HeaderDraft := do
  match dir with
  | .format =>
    unlessSet h.format dir t
    return { h with format := some (← argument (Argument.byte dir)) }
  | .endianness =>
    unlessSet h.endianness dir t
    return { h with endianness := some (← argument Argument.byteOrder) }
  | .intSize =>
    unlessSet h.intSize dir t
    return { h with intSize := some (← argument (Argument.byte dir)) }
  | .sizeTSize =>
    unlessSet h.sizeTSize dir t
    return { h with sizeTSize := some (← argument (Argument.byte dir)) }
  | .instructionSize =>
    unlessSet h.instructionSize dir t
    return { h with instructionSize := some (← argument (Argument.byte dir)) }
  | .numberFormat =>
    unlessSet h.numberFormat dir t
    let integral ← argument Argument.numberKind
    let size ← argument (Argument.byte dir)
    return { h with numberFormat := some (integral, size) }
  | _ => throw (.headerDirective dir)

/-- Reads the arguments of a directive about a function and carries it out. -/
def functionDirective (f : FunctionDraft) (dir : Directive) (t : Token) : Step FunctionDraft := do
  match dir with
  | .source =>
    unlessSet f.source dir t
    return { f with source := some (← argument Argument.string) }
  | .lineDefined =>
    unlessSet f.lineDefined dir t
    return { f with lineDefined := some (← argument Argument.integer) }
  | .lastLineDefined =>
    unlessSet f.lastLineDefined dir t
    return { f with lastLineDefined := some (← argument Argument.integer) }
  | .numParams =>
    unlessSet f.numParams dir t
    return { f with numParams := some (← argument (Argument.byte dir)) }
  | .isVararg =>
    unlessSet f.isVararg dir t
    return { f with isVararg := some (← argument (Argument.byte dir)) }
  | .maxStackSize =>
    unlessSet f.maxStackSize dir t
    return { f with maxStackSize := some (← argument (Argument.byte dir)) }
  | .constant =>
    let _ ← argument Argument.name
    let k ← read Head.constantValue
    return { f with constants := f.constants ++ [k] }
  | .line =>
    let line ← argument Argument.integer
    return { f with lines := f.lines ++ [line] }
  | .localVar =>
    let name ← argument Argument.string
    let first ← argument Argument.integer
    let last ← argument Argument.integer
    return { f with locals := f.locals ++ [⟨name, first, last⟩] }
  | .upvalue =>
    if f.upvalues.length = FunctionDraft.upvalueLimit then
      error t.pos (.tooManyUpvalues f.name)
    else
      let name ← argument Argument.name
      let index ← argument Argument.integer
      let inStack ← argument Argument.boolean
      return { f with upvalues := f.upvalues ++ [⟨name, index, inStack⟩] }
  | _ => throw (.functionDirective dir)

/-- Reads an operand in one of the formats in use. -/
def operand (op : Opcode) (f : OperandFormat) : Step Int :=
  match f with
  | ⟨.a, .plain⟩ | ⟨.a, .register⟩
  | ⟨.b, .plain⟩ | ⟨.b, .register⟩ | ⟨.b, .either⟩
  | ⟨.c, .plain⟩ | ⟨.c, .register⟩ | ⟨.c, .either⟩
  | ⟨.bx, .plain⟩ | ⟨.bx, .constant⟩ | ⟨.bx, .signed⟩ =>
    argument (Argument.operand op f)
  | _ => throw (.operandFormat f)

/-- Reads operands and packs them into the word `w`. -/
def operands (op : Opcode) (w : Word) : List OperandFormat → Step Word
  | [] => return w
  | f :: fs => do
    let v ← operand op f
    operands op (w ||| f.slot.field.encode v) fs

/-- Reads an instruction and adds it to a function. -/
def instruction (f : FunctionDraft) (op : Opcode) (t : Token) : Step FunctionDraft :=
  if f.maxStackSize.isSome then
    if Word.opcodeField.check op.number then do
      let w ← operands op (Word.opcodeField.encode op.number) op.operands
      return { f with code := f.code ++ [w] }
    else throw (.opcode op)
  else error t.pos .stackSizeExpected

/-! ## Tables -/

/-- A function in a table. -/
structure Entry where
  draft : FunctionDraft
  /-- The numbers of the functions nested in it, in the order of their declarations. -/
  children : List Nat

/-- A chunk that is being described. -/
structure Table where
  header : HeaderDraft
  /-- The functions; the number of a function is its place. -/
  entries : List Entry
  main : Option Nat
  current : Option Nat

/-- Something that can fail and may get to a site. -/
abbrev Checked := ExceptT Cause (Except Site)

namespace Table

/-- The table before the first statement. -/
def empty : Table :=
  ⟨.empty, [], none, none⟩

/-- The function with the number `i`. -/
def entry (tab : Table) (i : Nat) : Except Site Entry :=
  match tab.entries[i]? with
  | some e => .ok e
  | none => .error (.functionNumber i)

/-- The table with another function in the place of function `i`. -/
def put (tab : Table) (i : Nat) (e : Entry) : Table :=
  { tab with entries := tab.entries.set i e }

/-- The table with one more function, which becomes the current one. -/
def add (tab : Table) (f : FunctionDraft) : Table :=
  { tab with entries := tab.entries ++ [⟨f, []⟩], current := some tab.entries.length }

/-- The first of several functions whose path ends in `segment`. -/
def named (tab : Table) (segment : Bytes) : List Nat → Except Site (Option Nat)
  | [] => return none
  | i :: is => do
    let e ← tab.entry i
    if e.draft.lastSegment = segment then return some i else tab.named segment is

/-- The function that a path leads to from function `i`, or the segment at which it ends. -/
def follow (tab : Table) (i : Nat) : List Bytes → Except Site (Except Bytes Nat)
  | [] => return .ok i
  | segment :: rest => do
    let e ← tab.entry i
    match ← tab.named segment e.children with
    | some next => tab.follow next rest
    | none => return .error segment

/-- The table with a new function. -/
def declare (tab : Table) (name : Bytes) : Checked Table :=
  match tab.main with
  | none =>
    if 0x2F ∈ name then throw .mainIsPath
    else return { tab.add (.declared name none) with main := some tab.entries.length }
  | some main =>
    match name.split 0x2F with
    | root :: segment :: rest => do
      let segments := segment :: rest
      let e ← tab.entry main
      if root ≠ e.draft.name then throw (.outsideMain name)
      else if segments.contains [] then throw (.emptySegment name)
      else
        match ← tab.follow main segments.dropLast with
        | .error missing => throw (.noOuterFunction missing name)
        | .ok parent =>
          let grown := tab.add (.declared name (some parent))
          let e ← grown.entry parent
          return grown.put parent { e with children := e.children ++ [tab.entries.length] }
    | _ => throw (.outsideMain name)

/-- Finishes function `i` and the functions nested in it, which go down at most `levels` levels. -/
def build (tab : Table) : Nat → Nat → Checked (FunctionTree Prototype)
  | 0, i => Except.error (Site.endless i)
  | levels + 1, i => do
    let e ← tab.entry i
    let body ← e.draft.finish
    let nested ← e.children.mapM (tab.build levels)
    return .node body nested

/-- The chunk that the table describes. -/
def finish (tab : Table) : Checked Chunk := do
  let header ← tab.header.finish
  match tab.main with
  | none => throw .noFunction
  | some main =>
    match header.validate with
    | .error problem => throw (.invalidHeader problem)
    | .ok () => return { header, main := ← tab.build tab.entries.length main }

end Table

/-! ## Runs -/

/-- What can fail is reported at a position. -/
def reportAt {α : Type} (pos : Position) (x : Checked α) : Step α :=
  match x with
  | .ok (.ok a) => pure a
  | .ok (.error cause) => error pos cause
  | .error site => throw site

/-- The state before the first token. -/
def start : Step Table := do
  let _ ← read Assembly.start
  return .empty

/-- Changes the current function; a statement that does so is misplaced if there is none. -/
def onCurrent (tab : Table) (t : Token) (misplaced : Cause)
    (change : FunctionDraft → Step FunctionDraft) : Step Table :=
  match tab.current with
  | none => error t.pos misplaced
  | some i => do
    let e ← tab.entry i
    let f ← change e.draft
    return tab.put i { e with draft := f }

/-- Reads the arguments of a directive and carries it out. -/
def directive (tab : Table) (dir : Directive) (t : Token) : Step Table :=
  match dir.kind.number with
  | 0 => do
    let header ← headerDirective tab.header dir t
    return { tab with header }
  | 1 => do
    let (name, pos) ← argument fun t => (Argument.name t).map (·, t.pos)
    reportAt pos (tab.declare name)
  | 2 => onCurrent tab t .misplacedDirective fun f => functionDirective f dir t
  | n => throw (.kind n)

/-- The state after the first token of a statement. -/
def begin (tab : Table) (t : Token) : Step Table :=
  match Head.ofToken? t with
  | some (.directive dir) => directive tab dir t
  | some (.mnemonic op) => onCurrent tab t .misplacedCode fun f => instruction f op t
  | none => error t.pos (.unexpectedToken t.literal)

/-- The state after one more token.  A failure stays, and so does a site. -/
def feed : Reading (Except Site Table) → Token → Reading (Except Site Table)
  | .done (.ok tab), t => begin tab t
  | .done (.error site), _ => .done (.error site)
  | .fail failure, _ => .fail failure
  | .next resume, t => resume t

/-- What the assembler has made of all tokens of a source that ends at `stop`. -/
def conclude (stop : Position) :
    Reading (Except Site Table) → Except Site (Except Failure Chunk)
  | .done (.error site) => .error site
  | .done (.ok tab) =>
    match tab.finish with
    | .error site => .error site
    | .ok (.ok chunk) => .ok (.ok chunk)
    | .ok (.error cause) => .ok (.error (.error ⟨.none, cause⟩))
  | .fail failure => .ok (.error failure)
  | .next _ => .ok (.error (.error ⟨stop, .unexpectedEnd⟩))

/-- The chunk that a source text describes, or why there is none, unless a site is met. -/
def parse (source : Bytes) : Except Site (Except Failure Chunk) :=
  let lexed := lex source
  conclude lexed.stop (lexed.tokens.foldl feed start)

/-! ## Following the assembler of drafts -/

section

variable {α β γ δ : Type} {R : β → α → Prop} {Q : δ → γ → Prop}

/-- The step gets to no site.  Fed with the same tokens as the reading, it ends with a related
value, or with the same failure. -/
inductive Follows (R : β → α → Prop) : Step β → Reading α → Prop where
  | done {b : β} {a : α} (h : R b a) : Follows R (pure b) (.done a)
  | fail (e : Failure) : Follows R (read (.fail e)) (.fail e)
  | next {resume : Token → Step β} {resume' : Token → Reading α}
    (h : ∀ t, Follows R (resume t) (resume' t)) :
    Follows R (ExceptT.mk (.next resume)) (.next resume')

theorem follows_read (r : Reading α) : Follows (· = ·) (read r) r := by
  induction r with
  | done a => exact .done rfl
  | fail e => exact .fail e
  | next resume ih => exact .next ih

theorem Follows.bind {g : Step β} {r : Reading α} {k : β → Step δ} {k' : α → Reading γ}
    (h : Follows R g r) (hk : ∀ b a, R b a → Follows Q (k b) (k' a)) :
    Follows Q (g >>= k) (r.andThen k') := by
  induction h with
  | done h => exact hk _ _ h
  | fail e => exact .fail e
  | next _ ih => exact .next ih

theorem Follows.imp {R' : β → α → Prop} {g : Step β} {r : Reading α} (h : Follows R g r)
    (hR : ∀ b a, R b a → R' b a) : Follows R' g r := by
  induction h with
  | done h => exact .done (hR _ _ h)
  | fail e => exact .fail e
  | next _ ih => exact .next ih

/-- What both read in the same way. -/
theorem follows_read_bind (r : Reading α) {k : α → Step δ} {k' : α → Reading γ}
    (hk : ∀ a, Follows Q (k a) (k' a)) : Follows Q (read r >>= k) (r >>= k') :=
  (follows_read r).bind fun _ a hab => hab ▸ hk a

theorem follows_unlessSet {value : Option γ} {dir : Directive} {t : Token} {g : Step β}
    {r : Reading α} (h : Follows R g r) :
    Follows R (unlessSet value dir t >>= fun _ => g)
      (.unlessBarred (if value.isSome then some (.duplicate dir) else none) t.pos r) := by
  cases value with
  | none => exact h
  | some v => exact .fail _

theorem Follows.unlessBarred_andThen {o : Option Cause} {pos : Position} {g : Step δ}
    {r : Reading α} {k : α → Reading γ}
    (h : Follows Q g ((Reading.unlessBarred o pos r).andThen k)) :
    Follows Q g (.unlessBarred o pos (r.andThen k)) := by
  cases o with
  | none => exact h
  | some cause => exact h

end

theorem follows_headerDirective (h : HeaderDraft) {dir : Directive} (hdir : dir.kind = .header)
    (t : Token) :
    Follows (fun h' s => h' = h.apply s ∧ s.directive? = some dir) (headerDirective h dir t)
      (.unlessBarred (h.objection? dir) t.pos (Head.directiveArguments dir)) := by
  cases dir with
  | format => exact follows_unlessSet (follows_read_bind _ fun b => .done ⟨rfl, rfl⟩)
  | endianness => exact follows_unlessSet (follows_read_bind _ fun o => .done ⟨rfl, rfl⟩)
  | intSize => exact follows_unlessSet (follows_read_bind _ fun b => .done ⟨rfl, rfl⟩)
  | sizeTSize => exact follows_unlessSet (follows_read_bind _ fun b => .done ⟨rfl, rfl⟩)
  | instructionSize => exact follows_unlessSet (follows_read_bind _ fun b => .done ⟨rfl, rfl⟩)
  | numberFormat =>
    refine follows_unlessSet (follows_read_bind _ fun integral => ?_)
    exact follows_read_bind _ fun size => .done ⟨rfl, rfl⟩
  | _ => cases hdir

theorem follows_functionDirective (f : FunctionDraft) {dir : Directive}
    (hdir : dir.kind = .function) (t : Token) :
    Follows (fun f' s => f' = f.apply s ∧ s.directive? = some dir) (functionDirective f dir t)
      (.unlessBarred (f.objection? dir) t.pos (Head.directiveArguments dir)) := by
  cases dir with
  | source => exact follows_unlessSet (follows_read_bind _ fun s => .done ⟨rfl, rfl⟩)
  | lineDefined => exact follows_unlessSet (follows_read_bind _ fun n => .done ⟨rfl, rfl⟩)
  | lastLineDefined => exact follows_unlessSet (follows_read_bind _ fun n => .done ⟨rfl, rfl⟩)
  | numParams => exact follows_unlessSet (follows_read_bind _ fun b => .done ⟨rfl, rfl⟩)
  | isVararg => exact follows_unlessSet (follows_read_bind _ fun b => .done ⟨rfl, rfl⟩)
  | maxStackSize => exact follows_unlessSet (follows_read_bind _ fun b => .done ⟨rfl, rfl⟩)
  | constant =>
    refine follows_read_bind _ fun label => ?_
    exact follows_read_bind _ fun k => .done ⟨rfl, rfl⟩
  | line => exact follows_read_bind _ fun n => .done ⟨rfl, rfl⟩
  | localVar =>
    refine follows_read_bind _ fun name => follows_read_bind _ fun first => ?_
    exact follows_read_bind _ fun last => .done ⟨rfl, rfl⟩
  | upvalue =>
    rw [functionDirective, FunctionDraft.objection?]
    split_ifs
    · exact .fail _
    · refine follows_read_bind _ fun name => follows_read_bind _ fun index => ?_
      exact follows_read_bind _ fun inStack => .done ⟨rfl, rfl⟩
  | _ => cases hdir

theorem operand_eq (op : Opcode) {f : OperandFormat} (hf : f ∈ OperandFormat.all) :
    operand op f = argument (Argument.operand op f) := by
  revert f
  simp only [OperandFormat.all, List.forall_mem_cons]
  exact ⟨rfl, rfl, rfl, rfl, rfl, rfl, rfl, rfl, rfl, rfl, rfl, fun f hf => by cases hf⟩

theorem follows_operands (op : Opcode) {fs : List OperandFormat}
    (hfs : ∀ f ∈ fs, f ∈ OperandFormat.all) (w : Word) :
    Follows (· = ·) (operands op w fs) (Head.operands op w fs) := by
  induction fs generalizing w with
  | nil => exact .done rfl
  | cons f fs ih =>
    rw [List.forall_mem_cons] at hfs
    rw [operands, operand_eq op hfs.1]
    exact follows_read_bind _ fun v => ih hfs.2 _

theorem check_number (op : Opcode) : Word.opcodeField.check op.number = true := by
  cases op <;> decide

theorem follows_instruction (f : FunctionDraft) (op : Opcode) (t : Token) :
    Follows (fun f' s => f' = f.apply s ∧ s.directive? = none) (instruction f op t)
      (.unlessBarred (if f.maxStackSize.isSome then none else some .stackSizeExpected) t.pos
        (Head.arguments (.mnemonic op))) := by
  rw [instruction, if_pos (check_number op)]
  split_ifs
  · refine (follows_operands op (fun f hf => (op.operands_spec f hf).1) _).bind ?_
    rintro w _ rfl
    exact .done ⟨rfl, rfl⟩
  · exact .fail _

/-! ## The table of a draft -/

/-- The draft as a table. -/
def ofDraft (d : Draft) : Table where
  header := d.header
  entries := d.functions.mapIdx fun i f => ⟨f, Draft.children d.functions i⟩
  main := if d.functions = [] then none else some 0
  current := d.current.map fun _ => d.earlier.length

/-- The table is that of the draft, whose functions are an arena. -/
def Mirrors (tab : Table) (d : Draft) : Prop :=
  tab = ofDraft d ∧ Arena d.functions

variable {d : Draft} {f : FunctionDraft} {i : Nat}

theorem entry_ofDraft (hf : d.functions[i]? = some f) :
    (ofDraft d).entry i = .ok ⟨f, Draft.children d.functions i⟩ := by
  simp [Table.entry, ofDraft, hf]

theorem length_entries_ofDraft (d : Draft) : (ofDraft d).entries.length = d.functions.length := by
  simp [ofDraft]

theorem getElem?_functions_current (hf : d.current = some f) :
    d.functions[d.earlier.length]? = some f := by
  simp [Draft.functions, hf]

/-- Children are told by the places of the functions. -/
theorem children_congr {fs gs : List FunctionDraft}
    (h : gs.map FunctionDraft.place = fs.map FunctionDraft.place) (i : Nat) :
    Draft.children gs i = Draft.children fs i := by
  have hlength : gs.length = fs.length := by simpa using congrArg List.length h
  have hparent : ∀ j, Draft.parent? gs j = Draft.parent? fs j := by
    intro j
    have := congrArg (fun ps => ps[j]?.bind Prod.snd) h
    simpa [Draft.parent?, FunctionDraft.place, Option.bind_map, Function.comp_def] using this
  simp only [Draft.children, hlength, hparent]

/-! ## Statements that declare nothing -/

theorem ofDraft_update_header {s : Statement} (hs : s.kind = .header) :
    ofDraft (d.update s) = { ofDraft d with header := d.header.apply s } := by
  rw [Draft.update_of_kind_eq_header hs]
  rfl

/-- A statement about the current function changes its place in the table. -/
theorem ofDraft_update_function {s : Statement} (hs : s.kind = .function)
    (hf : d.current = some f) :
    ofDraft (d.update s) = (ofDraft d).put d.earlier.length
      ⟨f.apply s, Draft.children d.functions d.earlier.length⟩ := by
  have hheader : d.header.apply s = d.header :=
    HeaderDraft.apply_of_kind_ne (by rw [hs]; decide)
  have hfunctions : (d.update s).functions = d.functions.set d.earlier.length (f.apply s) := by
    simp [Draft.functions, Draft.update, hf]
  have hlength : d.earlier.length < d.functions.length := by simp [Draft.functions, hf]
  simp only [ofDraft, Table.put, children_congr (d.places_update s), Table.mk.injEq]
  refine ⟨hheader, ?_, ?_, ?_⟩
  · refine List.ext_getElem? fun j => ?_
    rw [List.getElem?_set, List.getElem?_mapIdx, hfunctions, List.getElem?_set,
      List.length_mapIdx, List.getElem?_mapIdx]
    by_cases hj : d.earlier.length = j
    · simp [← hj, hlength]
    · simp only [if_neg hj]
  · simp [Draft.functions, Draft.update, hf]
  · simp [Draft.update, hf]

/-- A directive about the header. -/
theorem follows_header (harena : Arena d.functions) {dir : Directive} (hdir : dir.kind = .header)
    (t : Token) : Follows Mirrors (directive (ofDraft d) dir t)
      (.unlessBarred (d.header.objection? dir) t.pos (Assembly.carryOut d (.directive dir))) := by
  have hnumber : dir.kind.number = 0 := by rw [hdir]; rfl
  simp only [directive, hnumber]
  refine ((follows_headerDirective d.header hdir t).bind ?_).unlessBarred_andThen
  rintro _ s ⟨rfl, hs⟩
  have hkind : s.kind = .header := by rw [Statement.kind, hs]; exact hdir
  rw [Draft.apply_of_kind_ne (by rw [hkind]; decide)]
  exact .done ⟨(ofDraft_update_header hkind).symm, harena.congr (d.places_update s)⟩

/-- A directive about the current function, or an instruction. -/
theorem follows_onCurrent (harena : Arena d.functions) (head : Head) {t : Token}
    {misplaced : Cause} {objection : FunctionDraft → Option Cause}
    {change : FunctionDraft → Step FunctionDraft}
    (hchange : ∀ f, Follows (fun f' s => f' = f.apply s ∧ s.kind = .function) (change f)
      (.unlessBarred (objection f) t.pos head.arguments)) :
    Follows Mirrors (onCurrent (ofDraft d) t misplaced change)
      (.unlessBarred
        (match d.current with
        | none => some misplaced
        | some f => objection f)
        t.pos (Assembly.carryOut d head)) := by
  rw [onCurrent]
  cases hf : d.current with
  | none =>
    have hcurrent : (ofDraft d).current = none := by simp [ofDraft, hf]
    rw [hcurrent]
    exact .fail _
  | some f =>
    have hcurrent : (ofDraft d).current = some d.earlier.length := by simp [ofDraft, hf]
    simp only [hcurrent, entry_ofDraft (getElem?_functions_current hf)]
    refine ((hchange f).bind ?_).unlessBarred_andThen
    rintro _ s ⟨rfl, hkind⟩
    rw [Draft.apply_of_kind_ne (by rw [hkind]; decide)]
    exact .done ⟨(ofDraft_update_function hkind hf).symm, harena.congr (d.places_update s)⟩

/-! ## Declarations -/

theorem liftM_ok_bind {α β : Type} (a : α) (k : α → Checked β) :
    (liftM (.ok a : Except Site α) : Checked α) >>= k = k a := rfl

theorem Table.entry_add {tab : Table} {e : Entry} (h : tab.entry i = .ok e) :
    (tab.add f).entry i = .ok e := by
  rw [Table.entry] at h ⊢
  cases hget : tab.entries[i]? with
  | none =>
    rw [hget] at h
    cases h
  | some e' =>
    obtain ⟨hi, -⟩ := List.getElem?_eq_some_iff.1 hget
    rw [hget] at h
    rw [Table.add, List.getElem?_append_left hi, hget]
    exact h

/-- Whether the path of function `j` ends in `segment`. -/
def endsIn (fs : List FunctionDraft) (segment : Bytes) (j : Nat) : Bool :=
  fs[j]?.map FunctionDraft.lastSegment = some segment

theorem child?_eq_find? (fs : List FunctionDraft) (i : Nat) (segment : Bytes) :
    Draft.child? fs i segment = (Draft.children fs i).find? (endsIn fs segment) := by
  have hiff : ∀ j (hj : j < fs.length), fs[j].parent = some i ∧ fs[j].lastSegment = segment ↔
      Draft.parent? fs j = some i ∧ endsIn fs segment j = true := by
    intro j hj
    simp [Draft.parent?, endsIn, hj]
  ext j
  rw [Draft.children, List.find?_filter, List.find?_range_eq_some, Draft.child?,
    List.findIdx?_eq_some_iff_getElem, List.mem_range]
  simp only [Bool.and_eq_true, decide_eq_true_eq, Bool.not_eq_true', decide_eq_false_iff_not]
  constructor
  · rintro ⟨hj, hself, hbefore⟩
    exact ⟨(hiff j hj).1 hself, hj, fun k hk h => hbefore k hk ((hiff k (hk.trans hj)).2 h)⟩
  · rintro ⟨hself, hj, hbefore⟩
    exact ⟨hj, (hiff j hj).2 hself, fun k hk h => hbefore k hk ((hiff k (hk.trans hj)).1 h)⟩

theorem named_ofDraft {segment : Bytes} {js : List Nat} (hjs : ∀ j ∈ js, j < d.functions.length) :
    (ofDraft d).named segment js = .ok (js.find? (endsIn d.functions segment)) := by
  induction js with
  | nil => rfl
  | cons j js ih =>
    rw [List.forall_mem_cons] at hjs
    have hentry := entry_ofDraft (List.getElem?_eq_getElem hjs.1)
    rw [Table.named, hentry, List.find?_cons]
    simp only [endsIn, List.getElem?_eq_getElem hjs.1, Option.map_some, Option.some.injEq, ih hjs.2]
    by_cases hlast : d.functions[j].lastSegment = segment
    · simp [hlast, bind, Except.bind, pure, Except.pure]
    · simp [hlast, bind, Except.bind]

theorem follow_ofDraft (segments : List Bytes) (hi : i < d.functions.length) :
    (ofDraft d).follow i segments = .ok (Draft.follow d.functions i segments) ∧
      ∀ j, Draft.follow d.functions i segments = .ok j → j < d.functions.length := by
  induction segments generalizing i with
  | nil =>
    refine ⟨rfl, fun j hj => ?_⟩
    cases hj
    exact hi
  | cons segment rest ih =>
    have hentry := entry_ofDraft (List.getElem?_eq_getElem hi)
    have hnamed : (ofDraft d).named segment (Draft.children d.functions i) =
        .ok (Draft.child? d.functions i segment) := by
      rw [child?_eq_find?]
      exact named_ofDraft fun j hj => Draft.lt_length_of_parent? (Draft.mem_children_iff.1 hj)
    rw [Table.follow, hentry, Draft.follow]
    simp only [bind, Except.bind, hnamed]
    cases hchild : Draft.child? d.functions i segment with
    | none => exact ⟨rfl, fun j hj => by cases hj⟩
    | some next =>
      rw [child?_eq_find?] at hchild
      exact ih (Draft.lt_length_of_parent?
        (Draft.mem_children_iff.1 (List.mem_of_find?_eq_some hchild)))

/-- The first function of all. -/
theorem ofDraft_declare_main (name : Bytes) (hd : d.functions = []) :
    ofDraft { d with earlier := d.functions, current := some (.declared name none) } =
      { (ofDraft d).add (.declared name none) with main := some (ofDraft d).entries.length } := by
  have hchildren : Draft.children [.declared name none] 0 = [] := rfl
  simp only [ofDraft, Table.add, Draft.functions_declare]
  simp [hd, hchildren]

/-- A new function is entered at the end, and among the children of the function above it. -/
theorem ofDraft_declare (h : Arena d.functions) (name : Bytes) (hf : d.functions[i]? = some f) :
    ofDraft { d with earlier := d.functions, current := some (.declared name (some i)) } =
      ((ofDraft d).add (.declared name (some i))).put i
        ⟨f, Draft.children d.functions i ++ [d.functions.length]⟩ := by
  obtain ⟨hi, hget⟩ := List.getElem?_eq_some_iff.1 hf
  have hparent : ∀ j, (FunctionDraft.declared name (some i)).parent = some j ↔ i = j :=
    fun j => Option.some_inj
  simp only [ofDraft, Table.add, Table.put, Draft.functions_declare, Table.mk.injEq, true_and]
  refine ⟨List.ext_getElem? fun j => ?_, ?_, by simp⟩
  · simp only [List.getElem?_mapIdx, Draft.children_concat, hparent]
    rcases lt_trichotomy j d.functions.length with hj | rfl | hj
    · by_cases hij : i = j
      · subst hij
        simp [hget, hi, Nat.lt_succ_of_lt hi]
      · simp [List.getElem?_append_left, hj, hij]
    · simp [hi.ne, h.children_of_ge le_rfl]
    · have hij : i ≠ j := by omega
      rw [List.getElem?_eq_none (by simp; omega), List.getElem?_eq_none (by simp; omega)]
      rfl
  · have hne : d.functions ≠ [] := List.ne_nil_of_length_pos (by omega)
    simp [hne]

theorem declare_ofDraft (h : Arena d.functions) (name : Bytes) :
    (ofDraft d).declare name = .ok ((d.declare name).map ofDraft) := by
  rw [Draft.declare, Table.declare]
  by_cases hd : d.functions = []
  · have hmain : (ofDraft d).main = none := if_pos hd
    have hparent : Draft.parentOf d.functions name =
        if 0x2F ∈ name then .error .mainIsPath else .ok none := by
      rw [hd]
      rfl
    simp only [hmain, hparent]
    split_ifs
    · rfl
    · simp only [Except.map, ofDraft_declare_main name hd]
      rfl
  · have hmain : (ofDraft d).main = some 0 := if_neg hd
    obtain ⟨main, rest, hfs⟩ := List.exists_cons_of_ne_nil hd
    have hzero : d.functions[0]? = some main := by rw [hfs]; rfl
    have hentry := entry_ofDraft hzero
    simp only [hmain]
    rw [hfs, Draft.parentOf, ← hfs]
    rcases name.split 0x2F with _ | ⟨root, _ | ⟨segment, more⟩⟩
    · rfl
    · rfl
    · obtain ⟨hfollow, hlt⟩ :=
        follow_ofDraft (segment :: more).dropLast (List.length_pos_iff.2 hd)
      simp only [hentry, hfollow, liftM_ok_bind, List.contains_iff_mem]
      split_ifs
      · rfl
      · rfl
      · cases hresult : Draft.follow d.functions 0 (segment :: more).dropLast with
        | error missing => rfl
        | ok parent =>
          have hget := List.getElem?_eq_getElem (hlt parent hresult)
          simp only [Table.entry_add (entry_ofDraft hget), liftM_ok_bind, Except.map,
            ofDraft_declare h name hget, length_entries_ofDraft]
          rfl

theorem follows_declaration (harena : Arena d.functions) (t : Token) :
    Follows Mirrors (directive (ofDraft d) .function t)
      (Assembly.carryOut d (.directive .function)) := by
  have hargument : Follows (fun (p : Bytes × Position) s => s = .function p.1 p.2)
      (argument fun t => (Argument.name t).map (·, t.pos))
      (Head.arguments (.directive .function)) := by
    refine .next fun u => ?_
    dsimp only
    cases Argument.name u with
    | ok name => exact .done rfl
    | error cause => exact .fail _
  refine hargument.bind ?_
  rintro ⟨name, pos⟩ _ rfl
  simp only [declare_ofDraft harena, Draft.apply, Draft.declare]
  cases hparent : Draft.parentOf d.functions name with
  | error cause => exact .fail _
  | ok parent =>
    exact .done ⟨rfl, by rw [Draft.functions_declare]; exact harena.declare hparent⟩

/-! ## Runs together -/

theorem follows_directive (harena : Arena d.functions) (dir : Directive) (t : Token) :
    Follows Mirrors (directive (ofDraft d) dir t)
      (.unlessBarred (d.objection? (.directive dir)) t.pos
        (Assembly.carryOut d (.directive dir))) := by
  rw [Draft.objection?]
  cases hkind : dir.kind with
  | header => exact follows_header harena hkind t
  | newFunction =>
    obtain rfl : dir = .function := by cases dir <;> first | rfl | cases hkind
    exact follows_declaration harena t
  | function =>
    have hnumber : dir.kind.number = 2 := by rw [hkind]; rfl
    simp only [directive, hnumber]
    refine follows_onCurrent harena (.directive dir) fun f => ?_
    refine (follows_functionDirective f hkind t).imp ?_
    rintro _ s ⟨rfl, hs⟩
    exact ⟨rfl, by rw [Statement.kind, hs]; exact hkind⟩

theorem follows_mnemonic (harena : Arena d.functions) (op : Opcode) (t : Token) :
    Follows Mirrors (onCurrent (ofDraft d) t .misplacedCode fun f => instruction f op t)
      (.unlessBarred (d.objection? (.mnemonic op)) t.pos (Assembly.carryOut d (.mnemonic op))) := by
  refine follows_onCurrent harena (.mnemonic op) fun f => ?_
  refine (follows_instruction f op t).imp ?_
  rintro _ s ⟨rfl, hs⟩
  exact ⟨rfl, by rw [Statement.kind, hs]⟩

theorem follows_begin (harena : Arena d.functions) (t : Token) :
    Follows Mirrors (begin (ofDraft d) t) (Assembly.begin d t) := by
  rw [Assembly.begin_eq, begin]
  rcases Head.ofToken? t with _ | dir | op
  · exact .fail _
  · exact follows_directive harena dir t
  · exact follows_mnemonic harena op t

theorem follows_feed {g : Step Table} {r : Reading Draft} (h : Follows Mirrors g r) (t : Token) :
    Follows Mirrors (feed g t) (Assembly.feed r t) := by
  cases h with
  | done hd =>
    obtain ⟨rfl, harena⟩ := hd
    exact follows_begin harena t
  | fail e => exact .fail e
  | next h => exact h t

theorem follows_foldl_feed {g : Step Table} {r : Reading Draft} (h : Follows Mirrors g r)
    (ts : List Token) : Follows Mirrors (ts.foldl feed g) (ts.foldl Assembly.feed r) := by
  induction ts generalizing g r with
  | nil => exact h
  | cons t ts ih => exact ih (follows_feed h t)

theorem follows_start : Follows Mirrors start Assembly.start := by
  refine .next fun t => ?_
  dsimp only
  split_ifs
  · refine .next fun u => ?_
    dsimp only
    split_ifs
    · exact .done ⟨rfl, .nil⟩
    · exact .fail _
  · exact .fail _

/-! ## The finished chunk -/

/-- Functions that are built one by one make the trees of all of them. -/
theorem mapM_build {js : List Nat} {ts : List (FunctionTree FunctionDraft)}
    {build : Nat → Checked (FunctionTree Prototype)}
    (h : List.Forall₂ (fun j t => build j = .ok (t.traverse FunctionDraft.finish)) js ts) :
    js.mapM build = .ok (FunctionTree.traverseAll FunctionDraft.finish ts) := by
  induction h with
  | nil => rfl
  | @cons j t js ts hj _ ih =>
    rw [List.mapM_cons, hj, ih, FunctionTree.traverseAll]
    cases t.traverse FunctionDraft.finish with
    | error cause => rfl
    | ok u =>
      cases FunctionTree.traverseAll FunctionDraft.finish ts with
      | error cause => rfl
      | ok us => rfl

/-- Children have larger numbers than the function they are nested in, so the levels below function
`i` are fewer than the functions from `i` on. -/
theorem build_ofDraft (h : Arena d.functions) {t : FunctionTree FunctionDraft}
    (ht : FunctionTree.Grown (Draft.children d.functions) (fun i f => d.functions[i]? = some f) i t)
    {levels : Nat} (hlevels : d.functions.length ≤ i + levels) :
    (ofDraft d).build levels i = .ok (t.traverse FunctionDraft.finish) := by
  induction ht generalizing levels with
  | @node i body nested hbody hlength _ ih =>
    obtain ⟨hi, -⟩ := List.getElem?_eq_some_iff.1 hbody
    obtain ⟨levels, rfl⟩ : ∃ n, levels = n + 1 := ⟨levels - 1, by omega⟩
    have hnested : (Draft.children d.functions i).mapM ((ofDraft d).build levels) =
        .ok (FunctionTree.traverseAll FunctionDraft.finish nested) := by
      refine mapM_build (List.forall₂_iff_get.2 ⟨hlength.symm, fun k hk hk' => ?_⟩)
      have hlt := h.parent?_lt (Draft.mem_children_iff.1 (List.getElem_mem hk))
      exact ih k _ _ (List.getElem?_eq_getElem hk) (List.getElem?_eq_getElem hk') (by omega)
    rw [Table.build, entry_ofDraft hbody, liftM_ok_bind, hnested, FunctionTree.traverse]
    cases body.finish with
    | error cause => rfl
    | ok p =>
      cases FunctionTree.traverseAll FunctionDraft.finish nested with
      | error cause => rfl
      | ok us => rfl

theorem finish_ofDraft (h : Arena d.functions) : (ofDraft d).finish = .ok d.finish := by
  have hheader : (ofDraft d).header = d.header := rfl
  rw [Table.finish, Draft.finish, hheader]
  cases d.header.finish with
  | error cause => rfl
  | ok header =>
    have hok : ∀ k : Header → Checked Chunk,
        (liftM (.ok header : Except Cause Header) : Checked Header) >>= k = k header := fun _ => rfl
    have hok' : ∀ k : Header → Except Cause Chunk, Except.ok header >>= k = k header := fun _ => rfl
    by_cases hd : d.functions = []
    · have hmain : (ofDraft d).main = none := if_pos hd
      rw [hmain, hd]
      rfl
    · have hmain : (ofDraft d).main = some 0 := if_neg hd
      have hempty : d.functions.isEmpty = false := by simpa using hd
      have hbuild : (ofDraft d).build (ofDraft d).entries.length 0 =
          .ok (d.tree.traverse FunctionDraft.finish) :=
        build_ofDraft h (Draft.tree_spec h hd).1 (by rw [length_entries_ofDraft]; omega)
      simp only [hmain, hempty, hbuild, hok, hok']
      cases header.validate with
      | error problem => rfl
      | ok u =>
        cases d.tree.traverse FunctionDraft.finish with
        | error cause => rfl
        | ok main => rfl

theorem conclude_of_follows {g : Step Table} {r : Reading Draft} (h : Follows Mirrors g r)
    (stop : Position) : conclude stop g = .ok (Assembly.conclude stop r) := by
  cases h with
  | fail e => rfl
  | next _ => rfl
  | @done _ d hd =>
    obtain ⟨rfl, harena⟩ := hd
    have hconclude : conclude stop (pure (ofDraft d) : Step Table) =
        match (ofDraft d).finish with
        | .error site => .error site
        | .ok (.ok chunk) => .ok (.ok chunk)
        | .ok (.error cause) => .ok (.error (.error ⟨.none, cause⟩)) := rfl
    rw [hconclude, finish_ofDraft harena, Assembly.conclude]
    cases d.finish with
    | error cause => rfl
    | ok chunk => rfl

/-- On every source the assembler by number ends as the assembler of drafts does.  So it gets to no
site. -/
theorem parse_eq (source : Bytes) : parse source = .ok (LuaAssembly.parse source) :=
  conclude_of_follows (follows_foldl_feed follows_start _) _

-- A table that is not that of a draft does get to sites.
example : ({ Table.empty with main := some 0 } : Table).declare (utf8 "f/g") =
    .error (.functionNumber 0) := by
  rfl

end Numbered

end LuaAssembly
