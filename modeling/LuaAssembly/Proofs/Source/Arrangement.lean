import Mathlib
import LuaAssembly.Proofs.Source.Numbered

/-!
# How functions are arranged

Whatever tokens the assembler is fed with, its functions are arranged by their names.  This is said
once for full names and lists of children, and holds of the two forms that the functions have: in a
draft, where the children of a function are those that are nested in it, and in a table, where each
function has a list of the numbers of its children and new numbers are added at its end.
-/
namespace LuaAssembly

/-- How numbered functions with given full names and children are arranged.  Of several functions
with the same name, the first has all the children. -/
structure Arranged (names : List Bytes) (children : Nat → List Nat) : Prop where
  main : ∀ name, names[0]? = some name → 0x2F ∉ name ∧ ∀ i, 0 ∉ children i
  nested : ∀ j name, 0 < j → names[j]? = some name →
    ∃ i outer segment, i < j ∧ names[i]? = some outer ∧
      name = outer ++ 0x2F :: segment ∧ segment ≠ [] ∧ 0x2F ∉ segment ∧
      firstNamed? names outer = some i ∧
      (children i).count j = 1 ∧ ∀ i', j ∈ children i' → i' = i
  inside : ∀ i, ∀ j ∈ children i, i < j ∧ j < names.length
  ordered : ∀ i, (children i).Pairwise (· < ·)

/-! ## Drafts -/

/-- A declaration is carried out when its name is read. -/
theorem Assembly.feed_function {d : Draft} {t u : Token} {name : Bytes}
    (ht : t.literal = Directive.function.token) (hu : u.IsName name) :
    feed (feed (.done d) t) u =
      match d.declare name with
      | .ok d' => .done d'
      | .error cause => .fail (.error ⟨u.pos, cause⟩) := by
  have hname := Argument.name_eq_ok_iff.2 hu
  rw [feed, begin, Head.ofToken?_eq_directive_iff.2 ht]
  simp only [Draft.objection?, Directive.kind, Head.arguments, Head.directiveArguments,
    Reading.argument, Reading.andThen_next, feed, hname, Except.map, Reading.andThen_done,
    Draft.apply]
  cases d.declare name with
  | error cause => rfl
  | ok d' => rfl

namespace Draft

/-- The full names of the functions. -/
def names (d : Draft) : List Bytes :=
  d.functions.map (·.name)

/-- Where the functions go that the next two tokens declare, if their names are paths below the
main function. -/
def Attaches (d : Draft) : Prop :=
  ∀ (main path segment : Bytes) (t u : Token),
    d.names[0]? = some main → IsUnder main (path ++ 0x2F :: segment) →
    0x2F ∉ segment → t.literal = Directive.function.token → u.IsName (path ++ 0x2F :: segment) →
    (∀ i, firstNamed? d.names path = some i →
      ∃ d', Assembly.feed (Assembly.feed (.done d) t) u = .done d' ∧
        d'.functions = d.functions ++ [.declared (path ++ 0x2F :: segment) (some i)] ∧
        children d'.functions i = children d.functions i ++ [d.functions.length] ∧
        ∀ i' ≠ i, children d'.functions i' = children d.functions i') ∧
    ((∃ missing, Assembly.feed (Assembly.feed (.done d) t) u =
        .fail (.error ⟨u.pos, .noOuterFunction missing (path ++ 0x2F :: segment)⟩)) ↔
      path ∉ d.names)

/-- The tree of all functions, before and after they are finished: each function once, below the
one it is a child of. -/
structure Builds (d : Draft) : Prop where
  tree : FunctionTree.Grown (children d.functions) (fun i f => d.functions[i]? = some f) 0 d.tree
  perm : d.tree.bodies.Perm d.functions
  finished : ∀ c, d.finish = .ok c → c.main.bodies.length = d.functions.length ∧
    FunctionTree.Grown (children d.functions)
      (fun i p => ∃ f, d.functions[i]? = some f ∧ f.finish = .ok p) 0 c.main

variable {d : Draft}

theorem arranged_of_arena (h : Arena d.functions) : Arranged d.names (children d.functions) := by
  refine ⟨fun name hname => ?_, fun j name hj hname => ?_, fun i j hj => ?_,
    fun i => pairwise_children i⟩
  · rw [names, List.getElem?_map, Option.map_eq_some_iff] at hname
    obtain ⟨f, hf, rfl⟩ := hname
    refine ⟨(h.main f hf).2, fun i hi => ?_⟩
    have := h.parent?_lt (mem_children_iff.1 hi)
    omega
  · rw [names, List.getElem?_map, Option.map_eq_some_iff] at hname
    obtain ⟨f, hf, rfl⟩ := hname
    obtain ⟨outer, segment, i, hi, hnested⟩ := h.nested j f hj hf
    have hparent : parent? d.functions j = some i := by
      rw [parent?, hf]
      exact hnested.parent
    refine ⟨i, outer, segment, hi, getElem?_of_firstNamed? hnested.first, hnested.name,
      hnested.segment_ne, hnested.slash_not_mem, hnested.first, count_children hparent,
      fun i' hi' => ?_⟩
    exact Option.some.inj ((mem_children_iff.1 hi').symm.trans hparent)
  · have hparent := mem_children_iff.1 hj
    rw [names, List.length_map]
    exact ⟨h.parent?_lt hparent, lt_length_of_parent? hparent⟩

theorem attaches_of_arena (h : Arena d.functions) : d.Attaches := by
  intro main path segment t u hmain hunder hsegment ht hu
  rw [names, List.getElem?_map, Option.map_eq_some_iff] at hmain
  obtain ⟨f, hf, rfl⟩ := hmain
  obtain ⟨hfound, hmissing⟩ := h.parentOf_of_isUnder hf hsegment hunder
  have hattached : ∀ i, firstNamed? d.names path = some i →
      Assembly.feed (Assembly.feed (.done d) t) u =
        .done { d with earlier := d.functions,
                       current := some (.declared (path ++ 0x2F :: segment) (some i)) } := by
    intro i hi
    rw [Assembly.feed_function ht hu, declare, hfound i hi]
    rfl
  refine ⟨fun i hi => ⟨_, hattached i hi, functions_declare d _, ?_, ?_⟩, ?_, ?_⟩
  · rw [functions_declare, children_concat]
    exact congrArg _ (if_pos rfl)
  · intro i' hne
    have hparent : (FunctionDraft.declared (path ++ 0x2F :: segment) (some i)).parent ≠ some i' :=
      fun heq => hne (Option.some.inj heq).symm
    rw [functions_declare, children_concat, if_neg hparent, List.append_nil]
  · rintro ⟨missing, hfail⟩
    rw [← firstNamed?_eq_none_iff]
    cases hfirst : firstNamed? d.names path with
    | none => rfl
    | some i =>
      rw [hattached i hfirst] at hfail
      cases hfail
  · intro hnone
    rw [← firstNamed?_eq_none_iff] at hnone
    obtain ⟨missing, herror⟩ := hmissing hnone
    refine ⟨missing, ?_⟩
    rw [Assembly.feed_function ht hu, declare, herror]
    rfl

theorem builds_of_arena (h : Arena d.functions) (hne : d.functions ≠ []) : d.Builds := by
  obtain ⟨hgrown, hperm⟩ := tree_spec h hne
  refine ⟨hgrown, hperm, fun c hc => ?_⟩
  obtain ⟨-, -, -, htree⟩ := finish_eq_ok_iff.1 hc
  refine ⟨?_, hgrown.traverse (fun i f p hf hp => ⟨f, hf, hp⟩) htree⟩
  rw [← (FunctionTree.forall₂_bodies _ htree).length_eq, hperm.length_eq]

end Draft

/-! ## Tables -/

namespace Numbered

namespace Follows

variable {α β : Type} {R : β → α → Prop} {g : Step β} {r : Reading α}

theorem exists_done (h : Follows R g r) {b : β} (hg : g = pure b) : ∃ a, r = .done a ∧ R b a := by
  cases h with
  | done hab =>
    cases hg
    exact ⟨_, rfl, hab⟩
  | fail e => cases hg
  | next _ => cases hg

theorem exists_pure (h : Follows R g r) {a : α} (hr : r = .done a) : ∃ b, g = pure b ∧ R b a := by
  cases h with
  | done hab =>
    cases hr
    exact ⟨_, rfl, hab⟩
  | fail e => cases hr
  | next _ => cases hr

theorem eq_fail_iff (h : Follows R g r) {e : Failure} : g = read (.fail e) ↔ r = .fail e := by
  cases h with
  | done _ => exact iff_of_false (fun hg => by cases hg) (fun hr => by cases hr)
  | fail e' =>
    constructor
    · intro hg
      cases hg
      rfl
    · rintro ⟨⟩
      rfl
  | next _ => exact iff_of_false (fun hg => by cases hg) (fun hr => by cases hr)

end Follows

namespace Table

/-- The full names of the functions. -/
def names (tab : Table) : List Bytes :=
  tab.entries.map (·.draft.name)

/-- The numbers that stand in the list of children of function `i`. -/
def children (tab : Table) (i : Nat) : List Nat :=
  (tab.entries[i]?.map Entry.children).getD []

/-- Where the functions go that the next two tokens declare, if their names are paths below the
main function: at the end of the table and of one list of children. -/
def Attaches (tab : Table) : Prop :=
  ∀ (main path segment : Bytes) (t u : Token),
    tab.names[0]? = some main → IsUnder main (path ++ 0x2F :: segment) →
    0x2F ∉ segment → t.literal = Directive.function.token → u.IsName (path ++ 0x2F :: segment) →
    (∀ i, firstNamed? tab.names path = some i →
      ∃ tab', feed (feed (.done (.ok tab)) t) u = .done (.ok tab') ∧
        tab'.names = tab.names ++ [path ++ 0x2F :: segment] ∧
        tab'.children i = tab.children i ++ [tab.entries.length] ∧
        ∀ i' ≠ i, tab'.children i' = tab.children i') ∧
    ((∃ missing, feed (feed (.done (.ok tab)) t) u =
        .fail (.error ⟨u.pos, .noOuterFunction missing (path ++ 0x2F :: segment)⟩)) ↔
      path ∉ tab.names)

/-- Building from the main function on comes to an end and makes one tree of all functions: each
function once, below the one that has it in its list of children. -/
structure Builds (tab : Table) (tree : FunctionTree FunctionDraft) : Prop where
  grown : FunctionTree.Grown tab.children
    (fun i f => tab.entries[i]?.map Entry.draft = some f) 0 tree
  perm : tree.bodies.Perm (tab.entries.map Entry.draft)
  build : tab.build tab.entries.length 0 = .ok (tree.traverse FunctionDraft.finish)
  finished : ∀ c, tab.finish = .ok (.ok c) → c.main.bodies.length = tab.entries.length ∧
    FunctionTree.Grown tab.children
      (fun i p => ∃ f, tab.entries[i]?.map Entry.draft = some f ∧ f.finish = .ok p) 0 c.main

end Table

variable {d : Draft}

/-- The entries of the table are the functions of the draft. -/
theorem map_draft_ofDraft (d : Draft) : (ofDraft d).entries.map Entry.draft = d.functions := by
  refine List.ext_getElem? fun i => ?_
  simp [ofDraft, Function.comp_def]

theorem getElem?_draft_ofDraft (d : Draft) (i : Nat) :
    (ofDraft d).entries[i]?.map Entry.draft = d.functions[i]? := by
  rw [← List.getElem?_map, map_draft_ofDraft]

theorem names_ofDraft (d : Draft) : (ofDraft d).names = d.names := by
  rw [Draft.names, ← map_draft_ofDraft, List.map_map]
  rfl

theorem children_ofDraft (h : Arena d.functions) :
    (ofDraft d).children = Draft.children d.functions := by
  funext i
  rw [Table.children, ofDraft, List.getElem?_mapIdx]
  cases hf : d.functions[i]? with
  | none => exact (h.children_of_ge (List.getElem?_eq_none_iff.1 hf)).symm
  | some f => rfl

theorem attaches_ofDraft (h : Arena d.functions) : (ofDraft d).Attaches := by
  intro main path segment t u hmain hunder hsegment ht hu
  rw [names_ofDraft] at hmain ⊢
  obtain ⟨hfound, hmissing⟩ :=
    Draft.attaches_of_arena h main path segment t u hmain hunder hsegment ht hu
  have hfollows : Follows Mirrors (feed (feed (.done (.ok (ofDraft d))) t) u)
      (Assembly.feed (Assembly.feed (.done d) t) u) :=
    follows_feed (follows_feed (.done ⟨rfl, h⟩) t) u
  constructor
  · intro i hi
    obtain ⟨d', hdone, hfunctions, hlast, hothers⟩ := hfound i hi
    obtain ⟨_, hpure, rfl, harena⟩ := hfollows.exists_pure hdone
    refine ⟨_, hpure, ?_, ?_, ?_⟩
    · rw [names_ofDraft, Draft.names, hfunctions, List.map_append]
      rfl
    · rw [children_ofDraft h, children_ofDraft harena, length_entries_ofDraft, hlast]
    · rw [children_ofDraft h, children_ofDraft harena]
      exact hothers
  · rw [← hmissing]
    exact exists_congr fun missing => hfollows.eq_fail_iff

theorem builds_ofDraft (h : Arena d.functions) (hne : d.functions ≠ []) :
    (ofDraft d).Builds d.tree := by
  have hbuilds := Draft.builds_of_arena h hne
  refine ⟨?_, ?_, ?_, fun c hc => ?_⟩
  · simp only [children_ofDraft h, getElem?_draft_ofDraft]
    exact hbuilds.tree
  · rw [map_draft_ofDraft]
    exact hbuilds.perm
  · exact build_ofDraft h hbuilds.tree (by rw [length_entries_ofDraft]; omega)
  · rw [finish_ofDraft h] at hc
    simp only [children_ofDraft h, getElem?_draft_ofDraft, length_entries_ofDraft]
    exact hbuilds.finished c (Except.ok.inj hc)

end Numbered

/-! ## Everything that tokens lead to -/

/-- Whatever tokens the assembler is fed with, the functions it holds are arranged by their names:
a new function goes to the first function with the name before its last slash, and all functions
come out in one tree.  This holds of the draft, and of the table with its lists of children, where
the main function has the number zero. -/
theorem functions_arranged (ts : List Token) :
    (∀ d, ts.foldl Assembly.feed Assembly.start = .done d →
      Arranged d.names (Draft.children d.functions) ∧ d.Attaches ∧
        (d.functions ≠ [] → d.Builds) ∧
        ts.foldl Numbered.feed Numbered.start = .done (.ok (Numbered.ofDraft d))) ∧
    ∀ tab : Numbered.Table, ts.foldl Numbered.feed Numbered.start = .done (.ok tab) →
      tab.main = (if tab.entries = [] then none else some 0) ∧
        Arranged tab.names tab.children ∧ tab.Attaches ∧
        (tab.entries ≠ [] → ∃ tree, tab.Builds tree) := by
  have hfollows := Numbered.follows_foldl_feed Numbered.follows_start ts
  constructor
  · intro d hd
    obtain ⟨_, hpure, rfl, harena⟩ := hfollows.exists_pure hd
    exact ⟨Draft.arranged_of_arena harena, Draft.attaches_of_arena harena,
      Draft.builds_of_arena harena, hpure⟩
  · intro tab htab
    obtain ⟨d, -, rfl, harena⟩ := hfollows.exists_done htab
    have hempty : (Numbered.ofDraft d).entries = [] ↔ d.functions = [] := by
      rw [← List.length_eq_zero_iff, Numbered.length_entries_ofDraft, List.length_eq_zero_iff]
    refine ⟨?_, ?_, Numbered.attaches_ofDraft harena, fun hne => ?_⟩
    · simp only [hempty]
      rfl
    · rw [Numbered.names_ofDraft, Numbered.children_ofDraft harena]
      exact Draft.arranged_of_arena harena
    · exact ⟨d.tree, Numbered.builds_ofDraft harena (mt hempty.2 hne)⟩

/-- Two functions with the same name, and a third below it. -/
def twinSource : Bytes :=
  utf8 ".version 5.1 .function m .function m/a .function m/a .function m/a/b"

/-- What `twinSource` declares. -/
def twinDraft : Draft :=
  { header := .empty,
    earlier := [.declared (utf8 "m") none, .declared (utf8 "m/a") (some 0),
      .declared (utf8 "m/a") (some 0)],
    current := some (.declared (utf8 "m/a/b") (some 1)) }

theorem functions_arranged_twinDraft :
    (tokenize twinSource).foldl Assembly.feed Assembly.start = .done twinDraft ∧
      Arranged twinDraft.names (Draft.children twinDraft.functions) ∧ twinDraft.Attaches ∧
      twinDraft.Builds ∧
      ∃ tab : Numbered.Table,
        (tokenize twinSource).foldl Numbered.feed Numbered.start = .done (.ok tab) ∧
          tab.entries.map Numbered.Entry.children = [[1, 2], [3], [], []] ∧
          Arranged tab.names tab.children ∧ tab.Attaches ∧ ∃ tree, tab.Builds tree := by
  have h : (tokenize twinSource).foldl Assembly.feed Assembly.start = .done twinDraft := by rfl
  obtain ⟨hdraft, htable⟩ := functions_arranged (tokenize twinSource)
  obtain ⟨harranged, hattaches, hbuilds, htab⟩ := hdraft twinDraft h
  obtain ⟨-, harranged', hattaches', hbuilds'⟩ := htable _ htab
  exact ⟨h, harranged, hattaches, hbuilds (by simp [Draft.functions, twinDraft]), _, htab,
    by decide, harranged', hattaches', hbuilds' (by simp [Numbered.ofDraft, Draft.functions,
      twinDraft])⟩

end LuaAssembly
