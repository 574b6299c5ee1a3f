import Mathlib
import LuaAssembly.Editor.Navigation
import LuaAssembly.Proofs.Source.Cursor
import LuaAssembly.Proofs.Source.Script

/-!
# Definitions agree with the assembler

The search for the definition of a constant goes through the tokens with no regard to statements.
It starts again at every declaration on or before the line, stops at the first one after it, and
gathers the constant directives in between.  In accepted source it gathers what the assembler turns
into the constants of the function that is declared last on or before the line.
-/
namespace LuaAssembly

/-! ## Lines of tokens -/

namespace Tiles

variable {p : Position} {bs : Bytes} {t : Token} {ts : List Token}

theorem line_le (h : Tiles p bs ts) (ht : t ∈ ts) : p.line ≤ t.pos.line := by
  obtain ⟨lead, tail, -, hpos, -⟩ := h.exists_of_mem ht
  rw [hpos]
  exact p.line_le_foldl_advance lead

/-- No token stands in an earlier line than one before it. -/
theorem pairwise_line (h : Tiles p bs ts) : ts.Pairwise fun t u => t.pos.line ≤ u.pos.line := by
  induction h with
  | nil => exact .nil
  | @cons p gap rest t ts _ _ _ hrest ih =>
    exact .cons (fun u hu => (t.pos.line_le_foldl_advance t.literal).trans (hrest.line_le hu)) ih

end Tiles

/-! ## The passage around a line -/

namespace Script

/-- The declarations of a text stand in the order of their lines. -/
theorem pairwise_line {S : Script} {text : Bytes} (hS : S.tokens = tokenize text) :
    S.passages.Pairwise fun F G => F.head.pos.line ≤ G.head.pos.line := by
  have htokens := (tiles_tokenize text).pairwise_line
  rw [← hS] at htokens
  exact (pairwise_declarations htokens).2.imp And.left

end Script

/-- Passage `j` is the last whose declaration starts on or before the line. -/
structure Passage.IsAround (Fs : List Passage) (line : Int) (j : Nat) (F : Passage) : Prop where
  passage : Fs[j]? = some F
  line_le : F.head.pos.line ≤ line
  last : ∀ j' G, j < j' → Fs[j']? = some G → line < G.head.pos.line

namespace Passage

variable {Fs : List Passage} {F G : Passage} {line : Int} {j : Nat}

theorem isAround_zero_iff : IsAround (F :: Fs) line 0 G ↔
    F = G ∧ F.head.pos.line ≤ line ∧ ∀ H ∈ Fs, line < H.head.pos.line := by
  constructor
  · rintro ⟨hpassage, hle, hlast⟩
    obtain rfl : F = G := by simpa using hpassage
    refine ⟨rfl, hle, fun H hH => ?_⟩
    obtain ⟨i, hi⟩ := List.mem_iff_getElem?.1 hH
    exact hlast (i + 1) H i.succ_pos (by simpa using hi)
  · rintro ⟨rfl, hle, hlast⟩
    refine ⟨rfl, hle, fun i H hi hH => ?_⟩
    obtain ⟨i, rfl⟩ := Nat.exists_eq_add_of_lt hi
    exact hlast H (List.mem_of_getElem? (i := i) (by simpa using hH))

theorem isAround_succ_iff : IsAround (F :: Fs) line (j + 1) G ↔ IsAround Fs line j G := by
  constructor
  · rintro ⟨hpassage, hle, hlast⟩
    exact ⟨by simpa using hpassage, hle, fun i H hi hH =>
      hlast (i + 1) H (Nat.succ_lt_succ hi) (by simpa using hH)⟩
  · rintro ⟨hpassage, hle, hlast⟩
    refine ⟨by simpa using hpassage, hle, fun i H hi hH => ?_⟩
    obtain ⟨i, rfl⟩ := Nat.exists_eq_succ_of_ne_zero (Nat.ne_zero_of_lt hi)
    exact hlast i H (Nat.lt_of_succ_lt_succ hi) (by simpa using hH)

theorem exists_isAround (Fs : List Passage) (line : Int) :
    (∀ F ∈ Fs, line < F.head.pos.line) ∨ ∃ j F, IsAround Fs line j F := by
  induction Fs with
  | nil => exact .inl (by simp)
  | cons F Fs ih =>
    rcases ih with hall | ⟨j, G, hG⟩
    · rcases lt_or_ge line F.head.pos.line with hlt | hle
      · exact .inl (List.forall_mem_cons.2 ⟨hlt, hall⟩)
      · exact .inr ⟨0, F, isAround_zero_iff.2 ⟨rfl, hle, hall⟩⟩
    · exact .inr ⟨j + 1, G, isAround_succ_iff.2 hG⟩

end Passage

/-! ## What the search gathers -/

namespace Editor

variable {line : Int} {found ts rest : List Token} {us : List Utterance} {F : Passage}
  {Fs : List Passage}

/-- The token is spelled neither like a declaration nor like the directive of constants. -/
def Unmarked (t : Token) : Prop :=
  t.literal ≠ Directive.function.token ∧ t.literal ≠ Directive.constant.token

theorem constantsOf_cons_of_unmarked {t : Token} (ht : Unmarked t) :
    constantsOf line found (t :: ts) = constantsOf line found ts := by
  rw [constantsOf, if_neg ht.1, if_neg ht.2]

theorem constantsOf_append_of_unmarked (hts : ∀ t ∈ ts, Unmarked t) :
    constantsOf line found (ts ++ rest) = constantsOf line found rest := by
  induction ts with
  | nil => rfl
  | cons t ts ih =>
    rw [List.forall_mem_cons] at hts
    rw [List.cons_append, constantsOf_cons_of_unmarked hts.1, ih hts.2]

/-- A statement that declares nothing adds its head, if it is about a constant. -/
theorem constantsOf_utterance {u : Utterance} (hplain : u.statement.kind ≠ .newFunction)
    (hargs : ∀ t ∈ u.args, Unmarked t) :
    constantsOf line found (u.tokens ++ rest) =
      constantsOf line
        (if u.statement.directive? = some .constant then u.head :: found else found) rest := by
  have hfunction : u.head.literal ≠ Directive.function.token :=
    mt u.literal_head_iff.1 (Utterance.directive?_ne_function hplain)
  rw [Utterance.tokens, List.cons_append, constantsOf, if_neg hfunction]
  simp only [u.literal_head_iff]
  split_ifs with hconstant
  · exact constantsOf_append_of_unmarked hargs
  · exact constantsOf_append_of_unmarked hargs

theorem constantsOf_utterances (hplain : ∀ u ∈ us, u.statement.kind ≠ .newFunction)
    (hargs : ∀ t ∈ us.flatMap Utterance.args, Unmarked t) :
    constantsOf line found (us.flatMap Utterance.tokens ++ rest) =
      constantsOf line (((us.filter fun u => u.statement.directive? = some .constant).map
        (·.head)).reverse ++ found) rest := by
  induction us generalizing found with
  | nil => rfl
  | cons u us ih =>
    rw [List.forall_mem_cons] at hplain
    rw [List.flatMap_cons, List.forall_mem_append] at hargs
    rw [List.flatMap_cons, List.append_assoc, constantsOf_utterance hplain.1 hargs.1,
      ih hplain.2 hargs.2]
    by_cases hconstant : u.statement.directive? = some .constant
    · simp [hconstant]
    · simp [hconstant]

/-- A passage ends the search, or it starts the search again. -/
theorem constantsOf_passage (hargs : ∀ t ∈ F.utterances.flatMap Utterance.args, Unmarked t) :
    constantsOf line found (F.utterances.flatMap Utterance.tokens ++ rest) =
      if line < F.head.pos.line then found.reverse
      else constantsOf line (F.constants.map (·.head)).reverse rest := by
  rw [Passage.utterances, List.flatMap_cons, List.forall_mem_append] at hargs
  have hhead : F.declaration.head.literal = Directive.function.token := F.literal_head
  rw [Passage.utterances, List.flatMap_cons, List.append_assoc, Utterance.tokens, List.cons_append,
    constantsOf, if_pos hhead, constantsOf_append_of_unmarked hargs.1,
    constantsOf_utterances F.plain hargs.2, List.append_nil]
  rfl

/-- Declarations after the line end the search. -/
theorem constantsOf_of_forall_lt (hlt : ∀ F ∈ Fs, line < F.head.pos.line)
    (hargs : ∀ t ∈ (Fs.flatMap Passage.utterances).flatMap Utterance.args, Unmarked t) :
    constantsOf line found ((Fs.flatMap Passage.utterances).flatMap Utterance.tokens) =
      found.reverse := by
  cases Fs with
  | nil => rfl
  | cons F Fs =>
    rw [List.flatMap_cons, List.flatMap_append, List.forall_mem_append] at hargs
    rw [List.flatMap_cons, List.flatMap_append, constantsOf_passage hargs.1,
      if_pos (hlt F List.mem_cons_self)]

/-- The search gathers the constants of the passage around the line. -/
theorem constantsOf_of_isAround {j : Nat} (hF : Passage.IsAround Fs line j F)
    (hlines : Fs.Pairwise fun F G => F.head.pos.line ≤ G.head.pos.line)
    (hargs : ∀ t ∈ (Fs.flatMap Passage.utterances).flatMap Utterance.args, Unmarked t) :
    constantsOf line found ((Fs.flatMap Passage.utterances).flatMap Utterance.tokens) =
      F.constants.map (·.head) := by
  induction Fs generalizing found j with
  | nil => simpa using hF.passage
  | cons G Fs ih =>
    rw [List.pairwise_cons] at hlines
    rw [List.flatMap_cons, List.flatMap_append, List.forall_mem_append] at hargs
    rw [List.flatMap_cons, List.flatMap_append, constantsOf_passage hargs.1]
    cases j with
    | zero =>
      obtain ⟨rfl, hle, hlast⟩ := Passage.isAround_zero_iff.1 hF
      rw [if_neg (not_lt.2 hle), constantsOf_of_forall_lt hlast hargs.2, List.reverse_reverse]
    | succ j =>
      rw [Passage.isAround_succ_iff] at hF
      have hle := (hlines.1 F (List.mem_of_getElem? hF.passage)).trans hF.line_le
      rw [if_neg (not_lt.2 hle)]
      exact ih hF hlines.2 hargs.2

end Editor

namespace Script

open Editor

variable {text : Bytes} {c : Chunk} {S : Script} {protos : List Prototype} {line : Int} {j : Nat}
  {F : Passage}

/-- Nothing is gathered before the first declaration. -/
theorem constantsOf_tokens (h : parse text = .ok c) (hS : S.tokens = tokenize text)
    (hargs : ∀ t ∈ S.arguments, Unmarked t) :
    constantsOf line [] (tokenize text) =
      constantsOf line [] ((S.passages.flatMap Passage.utterances).flatMap Utterance.tokens) := by
  have hversion : Unmarked S.version := by
    rw [Unmarked, S.literal_version]
    decide
  have hempty : S.preamble.filter (fun u => u.statement.directive? = some .constant) = [] := by
    rw [List.filter_eq_nil_iff]
    intro u hu
    rw [decide_eq_true_eq]
    exact directive?_preamble_ne h hS hu
  rw [arguments, List.forall_mem_cons, utterances, List.flatMap_append,
    List.forall_mem_append] at hargs
  rw [← hS, tokens, constantsOf_cons_of_unmarked hversion, constantsOf_cons_of_unmarked hargs.1,
    utterances, List.flatMap_append, constantsOf_utterances S.plain hargs.2.1, hempty]
  rfl

theorem unmarked_passages (hargs : ∀ t ∈ S.arguments, Unmarked t) :
    ∀ t ∈ (S.passages.flatMap Passage.utterances).flatMap Utterance.args, Unmarked t := by
  intro t ht
  refine hargs t (List.mem_cons_of_mem _ ?_)
  rw [utterances, List.flatMap_append]
  exact List.mem_append_right _ ht

theorem constantDefinition?_of_isAround (h : parse text = .ok c) (hS : S.tokens = tokenize text)
    (hargs : ∀ t ∈ S.arguments, Unmarked t) (hF : Passage.IsAround S.passages line j F) (k : Nat) :
    constantDefinition? text line k = F.constants[k]?.map (·.head) := by
  rw [constantDefinition?, constantsOf_tokens h hS hargs,
    constantsOf_of_isAround hF (pairwise_line hS) (unmarked_passages hargs), List.getElem?_map]

theorem constantDefinition?_of_forall_lt (h : parse text = .ok c) (hS : S.tokens = tokenize text)
    (hargs : ∀ t ∈ S.arguments, Unmarked t) (hlt : ∀ F ∈ S.passages, line < F.head.pos.line)
    (k : Nat) : constantDefinition? text line k = none := by
  rw [constantDefinition?, constantsOf_tokens h hS hargs,
    constantsOf_of_forall_lt hlt (unmarked_passages hargs)]
  rfl

/-- The statements of a passage are the constants of its function, one by one. -/
theorem exists_prototype_of_isAround (h : parse text = .ok c) (hS : S.tokens = tokenize text)
    (hprotos : S.program.Declares c protos) (hF : Passage.IsAround S.passages line j F) :
    ∃ proto, protos[j]? = some proto ∧
      F.constants.map (·.statement) = proto.constants.map .constant := by
  have hdenotes := forall₂_of_declares h hS hprotos
  obtain ⟨hj, rfl⟩ := List.getElem?_eq_some_iff.1 hF.passage
  have hj' : j < protos.length := hdenotes.length_eq ▸ hj
  exact ⟨protos[j], List.getElem?_eq_getElem hj',
    Passage.map_statement_constants (hdenotes.get hj hj')⟩

/-- A constant of the function around the line is found where it is stated. -/
theorem exists_constantDefinition?_eq (h : parse text = .ok c) (hS : S.tokens = tokenize text)
    (hprotos : S.program.Declares c protos) (hargs : ∀ t ∈ S.arguments, Unmarked t)
    (hF : Passage.IsAround S.passages line j F) {proto : Prototype}
    (hproto : protos[j]? = some proto) {k : Nat} {value : Constant}
    (hvalue : proto.constants[k]? = some value) :
    ∃ u, F.constants[k]? = some u ∧ u.statement = .constant value ∧
      constantDefinition? text line k = some u.head := by
  obtain ⟨proto', hproto', hmap⟩ := exists_prototype_of_isAround h hS hprotos hF
  obtain rfl := Option.some.inj (hproto.symm.trans hproto')
  have hk := congrArg (·[k]?) hmap
  simp only [List.getElem?_map, hvalue, Option.map_some, Option.map_eq_some_iff] at hk
  obtain ⟨u, hu, hstatement⟩ := hk
  refine ⟨u, hu, hstatement, ?_⟩
  rw [constantDefinition?_of_isAround h hS hargs hF, hu, Option.map_some]

end Script

namespace Editor

/-- Where constants are defined.  Accepted source is a script, and the functions of its chunk can be
listed in the order of their declarations.  If no argument looks like one of the two directives, a
constant of a line is found exactly when a function is declared on or before the line and the last
such function has the constant.  What is found is the directive of the statement that the constant
comes from. -/
theorem constantDefinition?_agrees {text : Bytes} {c : Chunk} (h : parse text = .ok c) :
    (∃ (S : Script) (protos : List Prototype),
        S.tokens = tokenize text ∧ S.program.Declares c protos) ∧
      ∀ (S : Script) (protos : List Prototype), S.tokens = tokenize text →
        S.program.Declares c protos →
        (∀ t ∈ S.arguments, t.literal ≠ Directive.function.token ∧
          t.literal ≠ Directive.constant.token) →
        ∀ (line : Int) (k : Nat),
          ((constantDefinition? text line k).isSome ↔
            ∃ j F proto, Passage.IsAround S.passages line j F ∧ protos[j]? = some proto ∧
              k < proto.constants.length) ∧
          ∀ j F proto, Passage.IsAround S.passages line j F → protos[j]? = some proto →
            ∀ value, proto.constants[k]? = some value →
              ∃ u, F.constants[k]? = some u ∧ u.statement = .constant value ∧
                constantDefinition? text line k = some u.head := by
  refine ⟨Script.exists_declares_of_parse h, ?_⟩
  intro S protos hS hprotos hargs line k
  refine ⟨⟨fun hsome => ?_, ?_⟩, fun j F proto hF hproto value hvalue =>
    Script.exists_constantDefinition?_eq h hS hprotos hargs hF hproto hvalue⟩
  · rcases Passage.exists_isAround S.passages line with hlt | ⟨j, F, hF⟩
    · rw [Script.constantDefinition?_of_forall_lt h hS hargs hlt] at hsome
      cases hsome
    · obtain ⟨proto, hproto, hmap⟩ := Script.exists_prototype_of_isAround h hS hprotos hF
      have hlength := congrArg List.length hmap
      rw [List.length_map, List.length_map] at hlength
      rw [Script.constantDefinition?_of_isAround h hS hargs hF, Option.isSome_map,
        isSome_getElem?, hlength] at hsome
      exact ⟨j, F, proto, hF, hproto, hsome⟩
  · rintro ⟨j, F, proto, hF, hproto, hk⟩
    obtain ⟨u, -, -, hu⟩ := Script.exists_constantDefinition?_eq h hS hprotos hargs hF hproto
      (List.getElem?_eq_getElem hk)
    rw [hu]
    rfl

/-- In the line with two functions, the constants are those of the second. -/
theorem constantDefinition?_agrees_spreadSource :
    constantDefinition? spreadSource 4 1 =
        some ⟨.word, Directive.constant.token, ⟨384, 4, 144⟩⟩ ∧
      ∃ (S : Script) (protos : List Prototype), S.tokens = tokenize spreadSource ∧
        S.program.Declares spreadChunk protos ∧
        (∀ t ∈ S.arguments, t.literal ≠ Directive.function.token ∧
          t.literal ≠ Directive.constant.token) ∧
        ∃ j F proto, Passage.IsAround S.passages 4 j F ∧ protos[j]? = some proto ∧
          1 < proto.constants.length := by
  obtain ⟨⟨S, protos, hS, hprotos⟩, hagrees⟩ := constantDefinition?_agrees parse_spreadSource
  have hargs := forall_arguments_ne_spreadSource hS
  have hfound : constantDefinition? spreadSource 4 1 =
      some ⟨.word, Directive.constant.token, ⟨384, 4, 144⟩⟩ := by decide +kernel
  refine ⟨hfound, S, protos, hS, hprotos, hargs, ?_⟩
  exact (hagrees S protos hS hprotos hargs 4 1).1.1 (by rw [hfound]; rfl)

end Editor

end LuaAssembly
