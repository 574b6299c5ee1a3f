import Mathlib
import LuaAssembly.Proofs.Source.Exchange

/-!
# Scripts

A program forgets the tokens that it was written in.  A script keeps them: each statement stands
with its tokens, and the statements are cut at the declarations.  The main statements are that the
tokens of accepted source are those of a script, and that the functions of the chunk are those that
the passages of the script declare, in this order.
-/
namespace LuaAssembly

open Statement

/-! ## Utterances -/

/-- A statement with the tokens that spell it. -/
structure Utterance where
  head : Token
  args : List Token
  statement : Statement
  phrase : Phrase (head :: args) statement

namespace Utterance

/-- The tokens, in order. -/
def tokens (u : Utterance) : List Token :=
  u.head :: u.args

/-- The head tells which directive it is. -/
theorem literal_head_iff (u : Utterance) {dir : Directive} :
    u.head.literal = dir.token ↔ u.statement.directive? = some dir := by
  obtain ⟨head, args, s, hphrase⟩ := u
  cases hphrase with
  | @directive _ _ dir' _ ht hargs =>
    rw [hargs.directive?_eq, ht]
    constructor
    · intro h
      have := congrArg Directive.ofToken? h
      rwa [Directive.ofToken?_token, Directive.ofToken?_token] at this
    · intro h
      rw [Option.some.inj h]
  | @instruction _ _ op w _ ht _ _ =>
    refine iff_of_false (fun h => ?_) (by simp [directive?])
    rw [h] at ht
    exact Head.foldCase_token_ne dir op ht

theorem directive?_ne_function {u : Utterance} (h : u.statement.kind ≠ .newFunction) :
    u.statement.directive? ≠ some .function := by
  intro hdir
  refine h ?_
  rw [Statement.kind, hdir]
  rfl

theorem spelled (us : List Utterance) : Spelled (us.flatMap tokens) (us.map statement) := by
  induction us with
  | nil => exact .nil
  | cons u us ih => exact .cons u.phrase ih

theorem exists_of_spelled {ts : List Token} {ss : List Statement} (h : Spelled ts ss) :
    ∃ us : List Utterance, us.flatMap tokens = ts ∧ us.map statement = ss := by
  induction h with
  | nil => exact ⟨[], rfl, rfl⟩
  | @cons us vs s ss hs _ ih =>
    obtain ⟨rest, rfl, rfl⟩ := ih
    obtain ⟨t, args, rfl⟩ : ∃ t args, us = t :: args := by cases hs <;> exact ⟨_, _, rfl⟩
    exact ⟨⟨t, args, s, hs⟩ :: rest, rfl, rfl⟩

end Utterance

/-! ## Passages -/

/-- A declaration with its tokens, and what stands behind it up to the next declaration. -/
structure Passage where
  head : Token
  /-- The name behind the directive. -/
  name : Token
  /-- The full name of the function. -/
  path : Bytes
  body : List Utterance
  literal_head : head.literal = Directive.function.token
  isName : name.IsName path
  plain : ∀ u ∈ body, u.statement.kind ≠ .newFunction

namespace Passage

/-- The declaration. -/
def declaration (F : Passage) : Utterance :=
  ⟨F.head, [F.name], .function F.path F.name.pos, .directive F.literal_head (.function F.isName)⟩

/-- The declaration and what stands behind it. -/
def utterances (F : Passage) : List Utterance :=
  F.declaration :: F.body

/-- The passage without its tokens. -/
def toSection (F : Passage) : Section :=
  ⟨F.path, F.name.pos, F.body.map (·.statement)⟩

/-- The statements that add constants. -/
def constants (F : Passage) : List Utterance :=
  F.body.filter fun u => u.statement.directive? = some .constant

theorem map_statement_utterances (F : Passage) :
    F.utterances.map (·.statement) = F.toSection.statements :=
  rfl

/-- The constants of the function are those that the statements add, in this order. -/
theorem map_statement_constants {F : Passage} {p : Prototype} (h : F.toSection.Denotes p) :
    F.constants.map (·.statement) = p.constants.map .constant := by
  have hpart : FunctionDraft.IsPart (some .constant) := by
    intro dir hdir
    rw [← Option.some.inj hdir]
    rfl
  have hstated : stated (some .constant) (F.body.map (·.statement)) = _ := h _ hpart
  rw [stated, List.filter_map] at hstated
  exact hstated

end Passage

/-- An utterance that declares a function starts a passage. -/
theorem Utterance.exists_passage {u : Utterance} (hu : u.statement.kind = .newFunction)
    {body : List Utterance} (hbody : ∀ v ∈ body, v.statement.kind ≠ .newFunction) :
    ∃ F : Passage, F.declaration = u ∧ F.body = body := by
  obtain ⟨head, args, s, hphrase⟩ := u
  obtain ⟨name, pos, rfl⟩ := Statement.exists_eq_function hu
  cases hphrase with
  | directive ht hargs =>
    cases hargs with
    | @function t name hname => exact ⟨⟨head, t, name, body, ht, hname, hbody⟩, rfl, rfl⟩

/-! ## Scripts -/

/-- The version, what stands before the first declaration, and passages. -/
structure Script where
  version : Token
  /-- The number of the version. -/
  number : Token
  /-- What stands before the first declaration. -/
  preamble : List Utterance
  passages : List Passage
  literal_version : version.literal = Directive.versionToken
  literal_number : number.literal = Assembly.versionNumber
  plain : ∀ u ∈ preamble, u.statement.kind ≠ .newFunction

namespace Script

/-- Everything behind the version, in order. -/
def utterances (S : Script) : List Utterance :=
  S.preamble ++ S.passages.flatMap Passage.utterances

/-- All tokens, in order. -/
def tokens (S : Script) : List Token :=
  S.version :: S.number :: S.utterances.flatMap Utterance.tokens

/-- The tokens that are arguments of directives and instructions. -/
def arguments (S : Script) : List Token :=
  S.number :: S.utterances.flatMap Utterance.args

/-- The script without its tokens. -/
def program (S : Script) : Program :=
  ⟨S.preamble.map (·.statement), S.passages.map Passage.toSection⟩

theorem map_statement_utterances (S : Script) :
    S.utterances.map (·.statement) = S.program.statements := by
  simp only [utterances, program, Program.statements, List.map_append, List.map_flatMap,
    List.flatMap_map, Passage.map_statement_utterances]

theorem opened (S : Script) : Opened S.tokens S.program.statements := by
  rw [← S.map_statement_utterances]
  exact .intro S.literal_version S.literal_number (Utterance.spelled _)

theorem isCut_program (S : Script) : S.program.IsCut := by
  refine ⟨fun s hs => ?_, fun s hs t ht => ?_⟩
  · obtain ⟨u, hu, rfl⟩ := List.mem_map.1 hs
    exact S.plain u hu
  · obtain ⟨F, -, rfl⟩ := List.mem_map.1 hs
    obtain ⟨u, hu, rfl⟩ := List.mem_map.1 ht
    exact F.plain u hu

/-- Utterances are cut at the declarations. -/
theorem exists_utterances_eq (us : List Utterance) :
    ∃ (preamble : List Utterance) (passages : List Passage),
      preamble ++ passages.flatMap Passage.utterances = us ∧
        ∀ u ∈ preamble, u.statement.kind ≠ .newFunction := by
  induction us with
  | nil => exact ⟨[], [], rfl, by simp⟩
  | cons u us ih =>
    obtain ⟨preamble, passages, rfl, hplain⟩ := ih
    by_cases hu : u.statement.kind = .newFunction
    · obtain ⟨F, rfl, rfl⟩ := Utterance.exists_passage hu hplain
      exact ⟨[], F :: passages, rfl, by simp⟩
    · exact ⟨u :: preamble, passages, rfl, List.forall_mem_cons.2 ⟨hu, hplain⟩⟩

theorem exists_of_opened {ts : List Token} {ss : List Statement} (h : Opened ts ss) :
    ∃ S : Script, S.tokens = ts := by
  obtain ⟨hv, hn, hts⟩ := h
  obtain ⟨us, rfl, -⟩ := Utterance.exists_of_spelled hts
  obtain ⟨preamble, passages, rfl, hplain⟩ := exists_utterances_eq us
  exact ⟨⟨_, _, preamble, passages, hv, hn, hplain⟩, rfl⟩

/-- Accepted source is a script. -/
theorem exists_of_parse {text : Bytes} {c : Chunk} (h : parse text = .ok c) :
    ∃ S : Script, S.tokens = tokenize text := by
  obtain ⟨ss, -, hopened, -⟩ := parse_eq_ok_iff_reaches.1 h
  exact exists_of_opened hopened

/-- What holds of any two tokens, one before the other, holds of those of the declarations. -/
theorem pairwise_declarations {S : Script} {R : Token → Token → Prop} (h : S.tokens.Pairwise R) :
    (∀ F ∈ S.passages, R F.head F.name) ∧
      S.passages.Pairwise fun F G => R F.head G.head ∧ R F.name G.head := by
  have hpassages : ∀ Fs : List Passage, (Fs.flatMap fun F => F.declaration.tokens).Sublist
      ((Fs.flatMap Passage.utterances).flatMap Utterance.tokens) := by
    intro Fs
    induction Fs with
    | nil => exact .slnil
    | cons F Fs ih =>
      rw [List.flatMap_cons, List.flatMap_cons, List.flatMap_append]
      exact (List.sublist_append_left _ _).append ih
  have hsublist : (S.passages.flatMap fun F => F.declaration.tokens).Sublist S.tokens := by
    rw [tokens, utterances, List.flatMap_append]
    exact .cons _ (.cons _ ((hpassages S.passages).trans (List.sublist_append_right _ _)))
  obtain ⟨hwithin, hbetween⟩ := List.pairwise_flatMap.1 (h.sublist hsublist)
  have hhead : ∀ F : Passage, F.head ∈ F.declaration.tokens := fun F => List.mem_cons_self
  have hname : ∀ F : Passage, F.name ∈ F.declaration.tokens :=
    fun F => List.mem_cons_of_mem _ List.mem_cons_self
  refine ⟨fun F hF => ?_, hbetween.imp fun {F G} hFG => ?_⟩
  · exact List.rel_of_pairwise_cons (hwithin F hF) List.mem_cons_self
  · exact ⟨hFG _ (hhead F) _ (hhead G), hFG _ (hname F) _ (hhead G)⟩

end Script

/-! ## Functions in the order of their declarations -/

/-- The prototypes are those of the functions of the chunk, in the order in which the program
declares them: function `i` stands in the tree where the program nests it, and no function of the
tree is left out or stands twice. -/
structure Program.Declares (p : Program) (c : Chunk) (protos : List Prototype) : Prop where
  length : protos.length = p.sections.length
  tree : FunctionTree.Grown p.children (fun i proto => protos[i]? = some proto) 0 c.main
  perm : c.main.bodies.Perm protos

namespace FunctionTree.Grown

variable {α : Type} {kids : Nat → List Nat} {P Q : Nat → α → Prop} {i j : Nat} {t : FunctionTree α}

theorem and (hP : Grown kids P i t) (hQ : Grown kids Q i t) :
    Grown kids (fun i a => P i a ∧ Q i a) i t := by
  induction hP with
  | node hbody hlength _ ih =>
    obtain ⟨hbody', -, hnested'⟩ := hQ
    exact .node ⟨hbody, hbody'⟩ hlength fun k j u hj hu => ih k j u hj hu (hnested' k j u hj hu)

theorem exists_of_mem (h : Grown kids P i t) (hj : j ∈ kids i) : ∃ u, Grown kids P j u := by
  obtain ⟨-, hlength, hnested⟩ := h
  obtain ⟨k, hk, rfl⟩ := List.getElem_of_mem hj
  exact ⟨_, hnested k _ _ (List.getElem?_eq_getElem hk)
    (List.getElem?_eq_getElem (hlength ▸ hk))⟩

theorem exists_body (h : Grown kids P i t) : ∃ a, P i a := by
  obtain ⟨hbody, -, -⟩ := h
  exact ⟨_, hbody⟩

end FunctionTree.Grown

namespace Draft

/-- Every function of an arena has its place in the tree of the main function. -/
theorem exists_grown_of_arena {fs : List FunctionDraft} (harena : Arena fs) {α : Type}
    {P : Nat → α → Prop} {t : FunctionTree α} (h : FunctionTree.Grown (children fs) P 0 t) {j : Nat}
    (hj : j < fs.length) : ∃ u, FunctionTree.Grown (children fs) P j u := by
  induction j using Nat.strong_induction_on with
  | _ j ih =>
    rcases Nat.eq_zero_or_pos j with rfl | hpos
    · exact ⟨t, h⟩
    · -- A function stands in the tree because the one that it is nested in does.
      have hf := List.getElem?_eq_getElem hj
      obtain ⟨path, segment, i, hi, hnested⟩ := harena.nested j fs[j] hpos hf
      obtain ⟨u, hu⟩ := ih i hi (hi.trans hj)
      refine hu.exists_of_mem (mem_children_iff.2 ?_)
      rw [parent?, hf]
      exact hnested.parent

/-- The finished functions of a draft, in the order of the draft. -/
theorem exists_finished {d : Draft} (harena : Arena d.functions) {c : Chunk}
    (h : d.finish = .ok c) : ∃ protos : List Prototype, protos.length = d.functions.length ∧
      FunctionTree.Grown (children d.functions) (fun i proto => protos[i]? = some proto) 0 c.main ∧
        c.main.bodies.Perm protos := by
  obtain ⟨-, hne, -, htree⟩ := finish_eq_ok_iff.1 h
  obtain ⟨hgrown, hperm⟩ := tree_spec harena hne
  -- The tree lists the functions in another order than the draft.
  obtain ⟨protos, hprotos, hsame⟩ :=
    List.perm_comp_forall₂ hperm.symm (FunctionTree.forall₂_bodies _ htree)
  refine ⟨protos, hprotos.length_eq.symm, hgrown.traverse (fun i f proto hf hproto => ?_) htree,
    hsame.symm⟩
  obtain ⟨hi, rfl⟩ := List.getElem?_eq_some_iff.1 hf
  have hi' : i < protos.length := hprotos.length_eq ▸ hi
  have hget := hprotos.get hi hi'
  simp only [List.get_eq_getElem] at hget
  rw [List.getElem?_eq_getElem hi', ← Except.ok.inj (hget.symm.trans hproto)]

end Draft

namespace Script

variable {text : Bytes} {c : Chunk} {S : Script} {protos : List Prototype}

theorem wellFormed_of_parse (h : parse text = .ok c) (hS : S.tokens = tokenize text) :
    S.program.WellFormed ∧ S.program.Denotes c := by
  have hopened : Opened (tokenize text) S.program.statements := hS ▸ S.opened
  exact (Program.parse_eq_ok_iff S.isCut_program hopened).1 h

/-- The functions of accepted source can be listed as its passages declare them. -/
theorem exists_declares (h : parse text = .ok c) (hS : S.tokens = tokenize text) :
    ∃ protos, S.program.Declares c protos := by
  obtain ⟨hp, hdenotes⟩ := wellFormed_of_parse h hS
  obtain ⟨d, hreach, hfunctions⟩ := hp.exists_reaches
  have hfinish : d.finish = .ok c :=
    (Program.finish_iff (Header.allowsAll_of_statedBy hdenotes.header) hp.follows hp.main
      hreach.arena hfunctions hreach.header.2).2 hdenotes
  obtain ⟨protos, hlength, htree, hperm⟩ := Draft.exists_finished hreach.arena hfinish
  rw [hfunctions] at hlength htree
  rw [Section.length_drafts] at hlength
  rw [Program.children_drafts] at htree
  exact ⟨protos, hlength, htree, hperm⟩

theorem exists_declares_of_parse (h : parse text = .ok c) :
    ∃ (S : Script) (protos : List Prototype),
      S.tokens = tokenize text ∧ S.program.Declares c protos := by
  obtain ⟨S, hS⟩ := exists_of_parse h
  obtain ⟨protos, hprotos⟩ := exists_declares h hS
  exact ⟨S, protos, hS, hprotos⟩

/-- Each passage says what the function is that it declares. -/
theorem forall₂_of_declares (h : parse text = .ok c) (hS : S.tokens = tokenize text)
    (hprotos : S.program.Declares c protos) :
    List.Forall₂ (fun F proto => F.toSection.Denotes proto) S.passages protos := by
  obtain ⟨hp, hdenotes⟩ := wellFormed_of_parse h hS
  obtain ⟨d, hreach, hfunctions⟩ := hp.exists_reaches
  have harena := hreach.arena
  have hboth := hprotos.tree.and hdenotes.main
  rw [hfunctions] at harena
  rw [← Program.children_drafts] at hboth
  have hlength : S.program.sections.length = S.passages.length := List.length_map _
  rw [List.forall₂_iff_get]
  refine ⟨by rw [hprotos.length, hlength], fun j hj hj' => ?_⟩
  obtain ⟨u, hu⟩ := Draft.exists_grown_of_arena harena hboth
    (j := j) (by rw [Section.length_drafts, hlength]; exact hj)
  obtain ⟨proto, hproto, s, hs, hdenotes⟩ := hu.exists_body
  have hproto' : protos.get ⟨j, hj'⟩ = proto := (List.getElem?_eq_some_iff.1 hproto).2
  have hs' : (S.passages.get ⟨j, hj⟩).toSection = s := by
    simpa [program, hj] using hs
  rw [hproto', hs']
  exact hdenotes

/-- No constant is stated before the first declaration of accepted source. -/
theorem directive?_preamble_ne (h : parse text = .ok c) (hS : S.tokens = tokenize text)
    {u : Utterance} (hu : u ∈ S.preamble) : u.statement.directive? ≠ some .constant := by
  intro hdir
  have hkind := (wellFormed_of_parse h hS).1.preamble _ (List.mem_map_of_mem hu)
  rw [Statement.kind, hdir] at hkind
  cases hkind

/-! ## Arguments that look like directives -/

/-- A directive is spelled by the statements with it, and by arguments. -/
theorem countP_tokens (S : Script) (dir : Directive) :
    S.tokens.countP (·.literal = dir.token) =
      S.utterances.countP (·.statement.directive? = some dir) +
        S.arguments.countP (·.literal = dir.token) := by
  have hversion : S.version.literal ≠ dir.token := by
    rw [S.literal_version]
    cases dir <;> decide
  have hflat : ∀ us : List Utterance,
      (us.flatMap Utterance.tokens).countP (·.literal = dir.token) =
        us.countP (·.statement.directive? = some dir) +
          (us.flatMap Utterance.args).countP (·.literal = dir.token) := by
    intro us
    induction us with
    | nil => rfl
    | cons u us ih =>
      have hu : decide (u.head.literal = dir.token) = decide (u.statement.directive? = some dir) :=
        decide_eq_decide.2 u.literal_head_iff
      simp only [List.flatMap_cons, Utterance.tokens, List.cons_append, List.countP_cons,
        List.countP_append, ih, hu]
      omega
  simp only [tokens, arguments, List.countP_cons, hversion, decide_false, hflat]
  simp only [Bool.false_eq_true, if_false]
  omega

theorem forall_arguments_ne_iff (S : Script) (dir : Directive) :
    (∀ t ∈ S.arguments, t.literal ≠ dir.token) ↔
      S.tokens.countP (·.literal = dir.token) =
        S.utterances.countP (·.statement.directive? = some dir) := by
  have hzero : S.arguments.countP (·.literal = dir.token) = 0 ↔ _ := List.countP_eq_zero
  rw [S.countP_tokens dir, Nat.add_eq_left, hzero]
  simp only [decide_eq_true_eq]

theorem countP_function (S : Script) :
    S.utterances.countP (·.statement.directive? = some .function) = S.passages.length := by
  have hplain : ∀ us : List Utterance, (∀ u ∈ us, u.statement.kind ≠ .newFunction) →
      us.countP (·.statement.directive? = some .function) = 0 := by
    intro us hus
    refine List.countP_eq_zero.2 fun u hu => ?_
    rw [decide_eq_true_eq]
    exact Utterance.directive?_ne_function (hus u hu)
  rw [utterances, List.countP_append, hplain _ S.plain, List.countP_flatMap, Nat.zero_add]
  have hone : ∀ F : Passage, F.utterances.countP (·.statement.directive? = some .function) = 1 := by
    intro F
    rw [Passage.utterances, List.countP_cons, hplain _ F.plain]
    rfl
  simp [Function.comp_def, hone]

theorem countP_constant (h : parse text = .ok c) (hS : S.tokens = tokenize text)
    (hprotos : S.program.Declares c protos) :
    S.utterances.countP (·.statement.directive? = some .constant) =
      (protos.map fun proto => proto.constants.length).sum := by
  have hpreamble : S.preamble.countP (·.statement.directive? = some .constant) = 0 := by
    refine List.countP_eq_zero.2 fun u hu => ?_
    rw [decide_eq_true_eq]
    exact directive?_preamble_ne h hS hu
  rw [utterances, List.countP_append, hpreamble, Nat.zero_add, List.countP_flatMap]
  have hforall₂ := forall₂_of_declares h hS hprotos
  generalize S.passages = Fs at hforall₂
  clear hprotos
  induction hforall₂ with
  | nil => rfl
  | @cons F proto Fs protos hF _ ih =>
    have hcount : F.utterances.countP (·.statement.directive? = some .constant) =
        proto.constants.length := by
      have hlength := congrArg List.length (Passage.map_statement_constants hF)
      rw [List.length_map, List.length_map, Passage.constants, ← List.countP_eq_length_filter]
        at hlength
      rw [Passage.utterances, List.countP_cons, hlength]
      rfl
    simp only [List.map_cons, List.sum_cons, ih, Function.comp_apply, hcount]

/-- No argument of accepted source is spelled like a declaration if there are as many such tokens
as functions. -/
theorem forall_arguments_ne_function_iff (h : parse text = .ok c) (hS : S.tokens = tokenize text) :
    (∀ t ∈ S.arguments, t.literal ≠ Directive.function.token) ↔
      (tokenize text).countP (·.literal = Directive.function.token) = c.main.bodies.length := by
  obtain ⟨protos, hprotos⟩ := exists_declares h hS
  have hlength : S.passages.length = c.main.bodies.length := by
    rw [hprotos.perm.length_eq, hprotos.length]
    exact (List.length_map _).symm
  rw [forall_arguments_ne_iff, hS, countP_function, hlength]

/-- No argument of accepted source is spelled like the directive of constants if there are as many
such tokens as constants. -/
theorem forall_arguments_ne_constant_iff (h : parse text = .ok c) (hS : S.tokens = tokenize text) :
    (∀ t ∈ S.arguments, t.literal ≠ Directive.constant.token) ↔
      (tokenize text).countP (·.literal = Directive.constant.token) =
        (c.main.bodies.map fun proto => proto.constants.length).sum := by
  obtain ⟨protos, hprotos⟩ := exists_declares h hS
  rw [forall_arguments_ne_iff, hS, countP_constant h hS hprotos, (hprotos.perm.map _).sum_eq]

end Script

/-- Scalars of a function, which end a line of `spreadSource`. -/
def spreadScalars : Bytes :=
  [ utf8 " .source \"\" .linedefined 0", utf8 " .lastlinedefined 0 .numparams 0",
    utf8 " .is_vararg 0 .maxstacksize 2" ].flatten

/-- Source with two declarations in a line, and statements that go on in the next line. -/
def spreadSource : Bytes :=
  [ utf8 ".version 5.1 .format 0 ", utf8 ".endianness LITTLE ", utf8 ".int_size 4 .size_t_size 4 ",
    utf8 ".instruction_size 4 ", utf8 ".number_format float 8\n",
    utf8 ".function m .constant a 1 .constant\n", utf8 "b \"x\"", spreadScalars,
    utf8 "\n.function m/f .constant c 2", spreadScalars,
    utf8 " .function m/f .constant d 3 .constant e 4", spreadScalars,
    utf8 "\n.function\n", utf8 "m/f/g", spreadScalars ].flatten

/-- The function with the scalars of `spreadScalars`. -/
def spreadPrototype (constants : List Constant) : Prototype where
  source := []
  lineDefined := 0
  lastLineDefined := 0
  numParams := 0
  isVararg := 0
  maxStackSize := 2
  code := []
  constants := constants
  lines := []
  locals := []
  upvalues := []

/-- The chunk that `spreadSource` describes. -/
def spreadChunk : Chunk where
  header := ⟨0, 1, 4, 4, 4, 8, false⟩
  main := .node (spreadPrototype [.ofNumber ⟨0x3FF0000000000000⟩, .ofString (utf8 "x")])
    [ .node (spreadPrototype [.ofNumber ⟨0x4000000000000000⟩])
        [.node (spreadPrototype []) []],
      .node (spreadPrototype [.ofNumber ⟨0x4008000000000000⟩, .ofNumber ⟨0x4010000000000000⟩]) [] ]

theorem parse_spreadSource : parse spreadSource = .ok spreadChunk := by
  decide +kernel

/-- No argument of `spreadSource` looks like one of the two directives. -/
theorem forall_arguments_ne_spreadSource {S : Script} (hS : S.tokens = tokenize spreadSource) :
    ∀ t ∈ S.arguments, t.literal ≠ Directive.function.token ∧
      t.literal ≠ Directive.constant.token := by
  have hfunction := Script.forall_arguments_ne_function_iff parse_spreadSource hS
  have hconstant := Script.forall_arguments_ne_constant_iff parse_spreadSource hS
  rw [forall₂_and, hfunction, hconstant]
  decide +kernel

end LuaAssembly
