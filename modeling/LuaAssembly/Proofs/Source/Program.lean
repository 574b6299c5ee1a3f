import Mathlib
import LuaAssembly.Proofs.Source.Entries
import LuaAssembly.Proofs.Source.Nesting

/-!
# Programs

A program is a sequence of statements, cut at its declarations: a preamble, and a section for each
function.  `Program.WellFormed` says which programs describe a chunk and `Program.Denotes` which
chunk that is, in terms of the statements alone.  The main statement is that a source text is
accepted exactly when its tokens are the version and a well-formed program, and that the result is
what the program denotes.
-/
namespace LuaAssembly

open Statement

/-- The part before the last occurrence of `sep`. -/
def Bytes.beforeLast (sep : UInt8) (bs : Bytes) : Bytes :=
  (bs.reverse.dropWhile (· ≠ sep)).tail.reverse

theorem Bytes.beforeLast_append_cons {sep : UInt8} (xs : Bytes) {ys : Bytes} (h : sep ∉ ys) :
    beforeLast sep (xs ++ sep :: ys) = xs := by
  have hall : ∀ b ∈ ys.reverse, (decide (b ≠ sep)) = true := by
    intro b hb
    rw [List.mem_reverse] at hb
    exact decide_eq_true fun heq => h (heq ▸ hb)
  rw [beforeLast, List.reverse_append, List.reverse_cons, List.append_assoc,
    List.dropWhile_append_of_pos hall]
  simp

theorem Bytes.exists_last {sep : UInt8} {bs : Bytes} (h : sep ∈ bs) :
    ∃ xs ys, bs = xs ++ sep :: ys ∧ sep ∉ ys := by
  obtain ⟨ys, xs, hbs, hys⟩ := List.eq_append_cons_of_mem (List.mem_reverse.2 h)
  refine ⟨xs.reverse, ys.reverse, ?_, by simpa using hys⟩
  rw [← List.reverse_reverse bs, hbs]
  simp

/-! ## Sections -/

/-- A function as source writes it: its name, and the statements up to the next declaration. -/
structure Section where
  name : Bytes
  /-- Where the name stands. -/
  pos : Position
  body : List Statement

namespace Section

/-- The declaration and the statements behind it. -/
def statements (s : Section) : List Statement :=
  .function s.name s.pos :: s.body

/-- The full name of the function that this one is nested in. -/
def outer (s : Section) : Bytes :=
  s.name.beforeLast 0x2F

/-- The number of the function that this one is nested in, if it stands behind others: the first
with the right name. -/
def parentIn (before : List Section) (s : Section) : Option Nat :=
  firstNamed? (before.map (·.name)) s.outer

/-- The name may stand behind others: the first is a plain name, and the others are paths that
start at it, have no empty segment and lead to a function that is nested in one of those before. -/
def Fits (before : List Section) (s : Section) : Prop :=
  (before = [] ∧ 0x2F ∉ s.name) ∨
    ∃ main, before.head? = some main ∧ IsUnder main.name s.name ∧ s.outer ∈ before.map (·.name)

/-- The body describes a function: every scalar is stated once, there are at most 255 upvalues,
and no instruction stands before the stack size.  Directives of the header may stand in a body. -/
structure WellFormed (s : Section) : Prop where
  plain : ∀ t ∈ s.body, t.kind ≠ .newFunction
  scalar : ∀ dir ∈ Directive.scalars, (stated (some dir) s.body).length = 1
  upvalue : (stated (some .upvalue) s.body).length ≤ 255
  instruction : ∀ front w back, s.body = front ++ .instruction w :: back →
    stated (some .maxStackSize) front ≠ []

/-- The body says what the prototype says: the same scalars, and the same instructions, constants,
lines, locals and upvalues in the same order. -/
def Denotes (s : Section) (p : Prototype) : Prop :=
  ∀ o, FunctionDraft.IsPart o → stated o s.body = p.entries o

/-- The draft that a section makes of its function. -/
def draft (s : Section) (parent : Option Nat) : FunctionDraft :=
  s.body.foldl FunctionDraft.apply (.declared s.name parent)

theorem place_draft (s : Section) (parent : Option Nat) :
    (s.draft parent).place = (s.name, parent) := by
  have hfoldl : ∀ (ss : List Statement) (f : FunctionDraft),
      (ss.foldl FunctionDraft.apply f).place = f.place := by
    intro ss
    induction ss with
    | nil => exact fun f => rfl
    | cons t ss ih => exact fun f => (ih _).trans (f.place_apply t)
  exact hfoldl s.body _

theorem allowsAll_declared_iff (s : Section) (parent : Option Nat) :
    (FunctionDraft.declared s.name parent).AllowsAll s.body ↔
      FunctionDraft.Orderly (fun _ => []) s.body := by
  rw [FunctionDraft.allowsAll_iff (by simp [FunctionDraft.declared])]
  constructor
  · exact fun h => h.congr fun o _ => FunctionDraft.entries_declared _ _ o
  · exact fun h => h.congr fun o _ => (FunctionDraft.entries_declared _ _ o).symm

theorem entries_draft {s : Section} (h : FunctionDraft.Orderly (fun _ => []) s.body)
    (parent : Option Nat) {o : Option Directive} (ho : FunctionDraft.IsPart o) :
    (s.draft parent).entries o = stated o s.body := by
  rw [draft, FunctionDraft.entries_foldl ((allowsAll_declared_iff s parent).2 h) ho,
    FunctionDraft.entries_declared, List.nil_append]

theorem finish_draft_iff {s : Section} (h : FunctionDraft.Orderly (fun _ => []) s.body)
    (parent : Option Nat) {p : Prototype} : (s.draft parent).finish = .ok p ↔ s.Denotes p := by
  rw [FunctionDraft.finish_eq_ok_iff, Denotes]
  refine forall_congr' fun o => forall_congr' fun ho => ?_
  rw [entries_draft h parent ho]

/-- Declaring a function succeeds when its name fits behind the others. -/
theorem parentOf_eq_ok_iff {fs : List FunctionDraft} (harena : Arena fs) {before : List Section}
    (hnames : fs.map (·.name) = before.map (·.name)) {s : Section} {parent : Option Nat} :
    Draft.parentOf fs s.name = .ok parent ↔ s.Fits before ∧ parent = s.parentIn before := by
  constructor
  · intro h
    rcases harena.parentOf_eq_ok h with ⟨rfl, hslash, rfl⟩ |
      ⟨main, path, segment, i, hmain, hunder, hname, -, hsegment, hfirst, rfl⟩
    · obtain rfl : before = [] := by simpa using hnames.symm
      exact ⟨.inl ⟨rfl, hslash⟩, rfl⟩
    · have houter : s.outer = path := by
        rw [outer, hname, Bytes.beforeLast_append_cons path hsegment]
      rw [hnames] at hfirst
      refine ⟨.inr ?_, by rw [parentIn, houter, hfirst]⟩
      have hhead := congrArg List.head? hnames
      rw [List.head?_map, List.head?_eq_getElem?, hmain, List.head?_map] at hhead
      obtain ⟨m, hm, hmname⟩ := Option.map_eq_some_iff.1 hhead.symm
      refine ⟨m, hm, by rw [hmname]; exact hunder, ?_⟩
      rw [houter]
      exact List.mem_of_getElem? (getElem?_of_firstNamed? hfirst)
  · rintro ⟨⟨rfl, hslash⟩ | ⟨main, hmain, hunder, hmem⟩, rfl⟩
    · obtain rfl : fs = [] := by simpa using hnames
      rw [Draft.parentOf, if_neg hslash]
      rfl
    · have hhead := congrArg List.head? hnames
      rw [List.head?_map, List.head?_map, hmain, List.head?_eq_getElem?] at hhead
      obtain ⟨f, hf, hfname⟩ := Option.map_eq_some_iff.1 hhead
      replace hunder : IsUnder f.name s.name := by
        rw [hfname]
        exact hunder
      obtain ⟨path, segment, hname, hsegment⟩ : ∃ path segment,
          s.name = path ++ 0x2F :: segment ∧ 0x2F ∉ segment := by
        obtain ⟨more, hmore, -⟩ := hunder
        exact Bytes.exists_last (by rw [hmore]; simp)
      have houter : s.outer = path := by
        rw [outer, hname, Bytes.beforeLast_append_cons path hsegment]
      rw [houter, ← hnames] at hmem
      rw [hname] at hunder ⊢
      cases hfirst : firstNamed? (fs.map (·.name)) path with
      | none => exact absurd hmem (firstNamed?_eq_none_iff.1 hfirst)
      | some i =>
        rw [(harena.parentOf_of_isUnder hf hsegment hunder).1 i hfirst, parentIn, houter, ← hnames,
          hfirst]

end Section

/-! ## Statements of one section -/

namespace Draft

variable {d d' : Draft} {s : Statement} {ss : List Statement}

theorem apply_of_kind_ne (hs : s.kind ≠ .newFunction) : d.apply s = .ok (d.update s) := by
  cases s with
  | function name pos => exact absurd rfl hs
  | _ => rfl

theorem apply_function_iff {name : Bytes} {pos : Position} :
    d.apply (.function name pos) = .ok d' ↔ ∃ parent, parentOf d.functions name = .ok parent ∧
      d' = { d with earlier := d.functions, current := some (.declared name parent) } := by
  constructor
  · intro h
    rcases apply_cases h with ⟨_, _, parent, ⟨⟩, hparent, rfl⟩ | ⟨hne, -⟩
    · exact ⟨parent, hparent, rfl⟩
    · exact absurd rfl hne
  · rintro ⟨parent, hparent, rfl⟩
    simp only [apply, declare, hparent, Except.map]

/-- The header follows the statements about it, wherever they stand. -/
theorem Reaches.header (h : d.Reaches ss d') :
    d.header.AllowsAll ss ∧ d'.header = ss.foldl HeaderDraft.apply d.header := by
  induction h with
  | nil d => exact ⟨trivial, rfl⟩
  | @cons d d₁ d' s ss hallows happly _ ih =>
    have hheader : d₁.header = d.header.apply s := by
      rcases apply_cases happly with ⟨_, _, _, rfl, -, rfl⟩ | ⟨-, rfl⟩ <;> rfl
    rw [hheader] at ih
    exact ⟨⟨(allows_iff.1 hallows).1, ih.1⟩, ih.2⟩

/-- Before the first declaration, only the header is spoken of. -/
theorem reaches_preamble_iff (hplain : ∀ s ∈ ss, s.kind ≠ .newFunction) (H : HeaderDraft) :
    Reaches ⟨H, [], none⟩ ss d' ↔ H.AllowsAll ss ∧ (∀ s ∈ ss, s.kind = .header) ∧
      d' = ⟨ss.foldl HeaderDraft.apply H, [], none⟩ := by
  induction ss generalizing H with
  | nil => simp [HeaderDraft.AllowsAll]
  | cons s ss ih =>
    rw [List.forall_mem_cons] at hplain
    have hkind : (s.kind = .function → ∃ f, (none : Option FunctionDraft) = some f ∧ f.Allows s) ↔
        s.kind = .header := by
      cases hk : s.kind with
      | header => simp
      | newFunction => exact absurd hk hplain.1
      | function => simp
    have hupdate : Draft.update ⟨H, [], none⟩ s = ⟨H.apply s, [], none⟩ := rfl
    rw [Reaches.cons_iff, allows_iff, apply_of_kind_ne hplain.1, HeaderDraft.AllowsAll,
      List.forall_mem_cons, hkind]
    simp only [Except.ok.injEq, exists_eq_left', hupdate, ih hplain.2, List.foldl_cons]
    tauto

/-- In a section, the header and the current function take the statements about them. -/
theorem reaches_body_iff (hplain : ∀ s ∈ ss, s.kind ≠ .newFunction) (H : HeaderDraft)
    (earlier : List FunctionDraft) (f : FunctionDraft) :
    Reaches ⟨H, earlier, some f⟩ ss d' ↔ H.AllowsAll ss ∧ f.AllowsAll ss ∧
      d' = ⟨ss.foldl HeaderDraft.apply H, earlier, some (ss.foldl FunctionDraft.apply f)⟩ := by
  induction ss generalizing H f with
  | nil => simp [HeaderDraft.AllowsAll, FunctionDraft.AllowsAll]
  | cons s ss ih =>
    rw [List.forall_mem_cons] at hplain
    have hfunction : (s.kind = .function → ∃ g, some f = some g ∧ g.Allows s) ↔ f.Allows s := by
      by_cases hk : s.kind = .function
      · simp [hk]
      · exact iff_of_true (fun hk' => absurd hk' hk) (FunctionDraft.allows_of_kind_ne hk)
    have hupdate : Draft.update ⟨H, earlier, some f⟩ s = ⟨H.apply s, earlier, some (f.apply s)⟩ :=
      rfl
    rw [Reaches.cons_iff, allows_iff, apply_of_kind_ne hplain.1, HeaderDraft.AllowsAll,
      FunctionDraft.AllowsAll, hfunction]
    simp only [Except.ok.injEq, exists_eq_left', hupdate, ih hplain.2, List.foldl_cons]
    tauto

end Draft

/-! ## Programs -/

/-- The drafts of functions that stand behind others. -/
def Section.drafts (before : List Section) : List Section → List FunctionDraft
  | [] => []
  | s :: sections => s.draft (s.parentIn before) :: drafts (before ++ [s]) sections

namespace Draft

variable {before sections : List Section}

/-- The functions that a section declares extend the arena. -/
theorem arena_concat_draft {fs : List FunctionDraft} (harena : Arena fs) {s : Section}
    {parent : Option Nat} (hparent : parentOf fs s.name = .ok parent) :
    Arena (fs ++ [s.draft parent]) := by
  refine (harena.declare hparent).congr ?_
  rw [List.map_append, List.map_append, List.map_singleton, List.map_singleton, s.place_draft]
  rfl

/-- What every section has to meet, behind others. -/
def Follows (before sections : List Section) : Prop :=
  (∀ front s back, sections = front ++ s :: back → s.Fits (before ++ front)) ∧
    ∀ s ∈ sections, FunctionDraft.Orderly (fun _ => []) s.body

theorem follows_cons_iff {s : Section} : Follows before (s :: sections) ↔
    s.Fits before ∧ FunctionDraft.Orderly (fun _ => []) s.body ∧
      Follows (before ++ [s]) sections := by
  constructor
  · rintro ⟨hfits, horderly⟩
    rw [List.forall_mem_cons] at horderly
    refine ⟨?_, horderly.1, fun front t back heq => ?_, horderly.2⟩
    · simpa using hfits [] s sections rfl
    · have := hfits (s :: front) t back (by rw [heq, List.cons_append])
      rwa [List.append_cons] at this
  · rintro ⟨hfits, horderly, hrest, horderlies⟩
    refine ⟨fun front t back heq => ?_, List.forall_mem_cons.2 ⟨horderly, horderlies⟩⟩
    cases front with
    | nil =>
      obtain ⟨rfl, rfl⟩ := List.cons.inj heq
      rwa [List.append_nil]
    | cons u front =>
      obtain ⟨rfl, rfl⟩ := List.cons.inj heq
      rw [List.append_cons]
      exact hrest front t back rfl

/-- Sections are carried out when each follows those before it. -/
theorem reaches_sections_iff (d : Draft) (before : List Section)
    (hplain : ∀ s ∈ sections, ∀ t ∈ s.body, t.kind ≠ .newFunction)
    (harena : Arena d.functions) (hnames : d.functions.map (·.name) = before.map (·.name))
    {fs : List FunctionDraft} :
    (∃ d', d.Reaches (sections.flatMap Section.statements) d' ∧ d'.functions = fs) ↔
      d.header.AllowsAll (sections.flatMap Section.statements) ∧ Follows before sections ∧
        fs = d.functions ++ Section.drafts before sections := by
  induction sections generalizing d before fs with
  | nil => simp [HeaderDraft.AllowsAll, Follows, Section.drafts, eq_comm]
  | cons s sections ih =>
    rw [List.forall_mem_cons] at hplain
    rw [follows_cons_iff, List.flatMap_cons, Section.statements, List.cons_append, Section.drafts]
    -- The draft after the section, and what is known of it.
    set parent := s.parentIn before with hparent
    set d₂ : Draft := ⟨s.body.foldl HeaderDraft.apply d.header, d.functions,
      some (s.draft parent)⟩ with hd₂
    have hbody : ∀ d' : Draft, Reaches ⟨d.header, d.functions, some (.declared s.name parent)⟩
        s.body d' ↔ _ := fun d' => reaches_body_iff hplain.1 _ _ _
    have hfunctions : d₂.functions = d.functions ++ [s.draft parent] := rfl
    have hnames₂ : d₂.functions.map (·.name) = (before ++ [s]).map (·.name) := by
      have hname : (s.draft parent).name = s.name := congrArg Prod.fst (s.place_draft parent)
      rw [hfunctions, List.map_append, List.map_append, hnames, List.map_singleton, hname]
      rfl
    constructor
    · rintro ⟨d', hreach, rfl⟩
      have hheader := hreach.header.1
      obtain ⟨-, d₁, hdeclare, hreach⟩ := Reaches.cons_iff.1 hreach
      obtain ⟨parent', hdeclared, rfl⟩ := apply_function_iff.1 hdeclare
      obtain ⟨hfits, rfl⟩ := (Section.parentOf_eq_ok_iff harena hnames).1 hdeclared
      obtain ⟨_, hsection, hrest⟩ := Reaches.append_iff.1 hreach
      obtain ⟨-, hallows, rfl⟩ := (hbody _).1 hsection
      have harena₂ : Arena d₂.functions := arena_concat_draft harena hdeclared
      obtain ⟨-, hfollows, heq⟩ := (ih d₂ _ hplain.2 harena₂ hnames₂).1 ⟨d', hrest, rfl⟩
      refine ⟨hheader, ⟨hfits, (s.allowsAll_declared_iff parent).1 hallows, hfollows⟩, ?_⟩
      rw [heq, hfunctions, List.append_assoc, List.singleton_append]
    · rintro ⟨hheader, ⟨hfits, horderly, hfollows⟩, rfl⟩
      have hdeclared := (Section.parentOf_eq_ok_iff harena hnames).2 ⟨hfits, hparent⟩
      have harena₂ : Arena d₂.functions := arena_concat_draft harena hdeclared
      rw [HeaderDraft.AllowsAll, HeaderDraft.allowsAll_append] at hheader
      obtain ⟨hallows, hall, hrest⟩ := hheader
      obtain ⟨d', hreach, heq⟩ := (ih d₂ _ hplain.2 harena₂ hnames₂).2 ⟨hrest, hfollows, rfl⟩
      refine ⟨d', Reaches.cons_iff.2 ⟨?_, _, apply_function_iff.2 ⟨parent, hdeclared, rfl⟩,
        Reaches.append_iff.2 ⟨d₂, (hbody d₂).2 ⟨hall, ?_, rfl⟩, hreach⟩⟩, ?_⟩
      · exact allows_iff.2 ⟨hallows, fun hk => by cases hk⟩
      · exact (s.allowsAll_declared_iff parent).2 horderly
      · rw [heq, hfunctions, List.append_assoc, List.singleton_append]

end Draft

/-- A program: statements before the first declaration, and sections. -/
structure Program where
  /-- The statements before the first declaration. -/
  preamble : List Statement
  sections : List Section

namespace Program

/-- All statements, in order. -/
def statements (p : Program) : List Statement :=
  p.preamble ++ p.sections.flatMap Section.statements

end Program

theorem Statement.exists_eq_function {s : Statement} (hs : s.kind = .newFunction) :
    ∃ name pos, s = .function name pos := by
  cases s with
  | function name pos => exact ⟨name, pos, rfl⟩
  | _ => cases hs

namespace Program

/-- Sequences of statements are programs, cut at their declarations. -/
theorem exists_statements_eq (ss : List Statement) : ∃ p : Program, p.statements = ss ∧
    (∀ s ∈ p.preamble, s.kind ≠ .newFunction) ∧
      ∀ s ∈ p.sections, ∀ t ∈ s.body, t.kind ≠ .newFunction := by
  induction ss with
  | nil => exact ⟨⟨[], []⟩, rfl, by simp, by simp⟩
  | cons s ss ih =>
    obtain ⟨p, rfl, hpreamble, hsections⟩ := ih
    by_cases hs : s.kind = .newFunction
    · obtain ⟨name, pos, rfl⟩ := Statement.exists_eq_function hs
      refine ⟨⟨[], ⟨name, pos, p.preamble⟩ :: p.sections⟩, rfl, by simp, ?_⟩
      exact List.forall_mem_cons.2 ⟨hpreamble, hsections⟩
    · exact ⟨⟨s :: p.preamble, p.sections⟩, rfl, List.forall_mem_cons.2 ⟨hs, hpreamble⟩, hsections⟩

/-- The number of the function that function `j` is nested in. -/
def parent? (p : Program) (j : Nat) : Option Nat :=
  p.sections[j]?.bind fun s => s.parentIn (p.sections.take j)

/-- The functions nested in function `i`, in the order of their declarations. -/
def children (p : Program) (i : Nat) : List Nat :=
  (List.range p.sections.length).filter fun j => p.parent? j = some i

end Program

/-- The header is valid, and each of its directives is stated once, with the value it has. -/
def Header.StatedBy (h : Header) (ss : List Statement) : Prop :=
  h.validate = .ok () ∧ ∀ dir, dir.kind = .header → stated (some dir) ss = h.entries dir

namespace Program

/-- The program describes a chunk. -/
structure WellFormed (p : Program) : Prop where
  preamble : ∀ s ∈ p.preamble, s.kind = .header
  header : ∃ h : Header, h.StatedBy p.statements
  main : p.sections ≠ []
  names : ∀ before s after, p.sections = before ++ s :: after → s.Fits before
  bodies : ∀ s ∈ p.sections, s.WellFormed

/-- The chunk that the program describes. -/
structure Denotes (p : Program) (c : Chunk) : Prop where
  header : c.header.StatedBy p.statements
  main : FunctionTree.Grown p.children
    (fun i proto => ∃ s, p.sections[i]? = some s ∧ s.Denotes proto) 0 c.main

/-- What the assembler makes of the statements of a program. -/
theorem reaches_iff {p : Program} (hpreamble : ∀ s ∈ p.preamble, s.kind ≠ .newFunction)
    (hsections : ∀ s ∈ p.sections, ∀ t ∈ s.body, t.kind ≠ .newFunction)
    {fs : List FunctionDraft} :
    (∃ d, Draft.empty.Reaches p.statements d ∧ d.functions = fs) ↔
      HeaderDraft.empty.AllowsAll p.statements ∧ (∀ s ∈ p.preamble, s.kind = .header) ∧
        Draft.Follows [] p.sections ∧ fs = Section.drafts [] p.sections := by
  have hempty : Draft.empty = ⟨.empty, [], none⟩ := rfl
  set d₁ : Draft := ⟨p.preamble.foldl HeaderDraft.apply .empty, [], none⟩
  have hrest : (∃ d, d₁.Reaches (p.sections.flatMap Section.statements) d ∧ d.functions = fs) ↔ _ :=
    Draft.reaches_sections_iff d₁ [] hsections Arena.nil rfl
  rw [statements, HeaderDraft.allowsAll_append, hempty]
  constructor
  · rintro ⟨d, hreach, hfs⟩
    obtain ⟨_, hfirst, hreach⟩ := Draft.Reaches.append_iff.1 hreach
    obtain ⟨hall, hkind, rfl⟩ := (Draft.reaches_preamble_iff hpreamble _).1 hfirst
    obtain ⟨hall', hfollows, heq⟩ := hrest.1 ⟨d, hreach, hfs⟩
    exact ⟨⟨hall, hall'⟩, hkind, hfollows, heq⟩
  · rintro ⟨⟨hall, hall'⟩, hkind, hfollows, heq⟩
    obtain ⟨d, hreach, hfs⟩ := hrest.2 ⟨hall', hfollows, heq⟩
    refine ⟨d, Draft.Reaches.append_iff.2 ⟨d₁, ?_, hreach⟩, hfs⟩
    exact (Draft.reaches_preamble_iff hpreamble _).2 ⟨hall, hkind, rfl⟩

end Program

theorem Section.length_drafts (before sections : List Section) :
    (drafts before sections).length = sections.length := by
  induction sections generalizing before with
  | nil => rfl
  | cons s sections ih => rw [drafts, List.length_cons, ih, List.length_cons]

theorem Section.drafts_ne_nil {before sections : List Section} (h : sections ≠ []) :
    drafts before sections ≠ [] := by
  obtain ⟨s, rest, rfl⟩ := List.exists_cons_of_ne_nil h
  simp [drafts]

theorem Section.getElem?_drafts (before sections : List Section) (j : Nat) :
    (drafts before sections)[j]? =
      sections[j]?.map fun s => s.draft (s.parentIn (before ++ sections.take j)) := by
  induction sections generalizing before j with
  | nil => simp [drafts]
  | cons s sections ih =>
    cases j with
    | zero => simp [drafts]
    | succ j => simp [drafts, ih]

/-! ## The header -/

theorem HeaderDraft.entries_empty (dir : Directive) : HeaderDraft.empty.entries dir = [] := by
  cases dir <;> rfl

/-- The header that statements make is finished as the header that they state. -/
theorem Header.statedBy_iff {h : Header} {ss : List Statement}
    (hall : HeaderDraft.empty.AllowsAll ss) :
    h.StatedBy ss ↔ (ss.foldl HeaderDraft.apply .empty).finish = .ok h ∧ h.validate = .ok () := by
  rw [StatedBy, and_comm]
  refine and_congr_left fun hvalid => ?_
  obtain ⟨o, ho⟩ := (usable_of_problem? ((problem?_eq_none_iff_validate _).2 hvalid)).order
  rw [HeaderDraft.finish_eq_ok_iff ho]
  refine forall_congr' fun dir => forall_congr' fun hdir => ?_
  rw [HeaderDraft.entries_foldl hall hdir, HeaderDraft.entries_empty, List.nil_append]

theorem Header.allowsAll_of_statedBy {h : Header} {ss : List Statement} (hss : h.StatedBy ss) :
    HeaderDraft.empty.AllowsAll ss := by
  rw [HeaderDraft.allowsAll_iff]
  intro dir hdir
  rw [HeaderDraft.entries_empty, List.nil_append, hss.2 dir hdir]
  cases dir with
  | endianness => cases ho : ByteOrder.ofTag? h.endianness <;> simp [entries, ho]
  | _ => simp [entries]

/-! ## What is accepted -/

/-- A draft is finished when its header is valid and its functions are finished. -/
theorem Draft.exists_finish_iff {d : Draft} (harena : Arena d.functions) :
    (∃ c, d.finish = .ok c) ↔ (∃ h, d.header.finish = .ok h ∧ h.validate = .ok ()) ∧
      d.functions ≠ [] ∧ ∀ f ∈ d.functions, ∃ p, f.finish = .ok p := by
  constructor
  · rintro ⟨c, hc⟩
    obtain ⟨hheader, hne, hvalid, htree⟩ := Draft.finish_eq_ok_iff.1 hc
    refine ⟨⟨c.header, hheader, hvalid⟩, hne, fun f hf => ?_⟩
    rw [← (Draft.tree_spec harena hne).2.mem_iff] at hf
    obtain ⟨p, hp⟩ := FunctionTree.exists_of_mem_bodies htree hf
    exact ⟨p, hp⟩
  · rintro ⟨⟨h, hheader, hvalid⟩, hne, hfunctions⟩
    cases htree : d.tree.traverse FunctionDraft.finish with
    | ok main => exact ⟨⟨h, main⟩, Draft.finish_eq_ok_iff.2 ⟨hheader, hne, hvalid, htree⟩⟩
    | error cause =>
      obtain ⟨f, hf, herror⟩ := FunctionTree.exists_of_traverse_eq_error _ htree
      obtain ⟨p, hp⟩ := hfunctions f ((Draft.tree_spec harena hne).2.mem_iff.1 hf)
      rw [hp] at herror
      cases herror

namespace Program

variable {p : Program} {d : Draft} {c : Chunk}

theorem children_drafts (p : Program) :
    Draft.children (Section.drafts [] p.sections) = p.children := by
  have hparent : ∀ j, Draft.parent? (Section.drafts [] p.sections) j = p.parent? j := by
    intro j
    rw [Draft.parent?, Section.getElem?_drafts, parent?]
    cases p.sections[j]? with
    | none => rfl
    | some s => exact congrArg Prod.snd (s.place_draft _)
  funext i
  rw [Draft.children, children, Section.length_drafts]
  simp only [hparent]

/-- The sections of a well-formed program follow each other. -/
theorem WellFormed.follows (hp : p.WellFormed) : Draft.Follows [] p.sections := by
  refine ⟨hp.names, fun s hs => ⟨fun dir hdir => ?_, ?_, fun front w back heq => ?_⟩⟩
  · exact ((hp.bodies s hs).scalar dir hdir).le
  · exact (hp.bodies s hs).upvalue
  · exact (hp.bodies s hs).instruction front w back heq

/-- The functions of a well-formed program are finished. -/
theorem WellFormed.exists_finish (hp : p.WellFormed) {f : FunctionDraft}
    (hf : f ∈ Section.drafts [] p.sections) : ∃ proto, f.finish = .ok proto := by
  obtain ⟨j, hj⟩ := List.mem_iff_getElem?.1 hf
  rw [Section.getElem?_drafts, Option.map_eq_some_iff] at hj
  obtain ⟨s, hs, rfl⟩ := hj
  have hmem := List.mem_of_getElem? hs
  refine FunctionDraft.exists_finish_eq_ok fun dir hdir => ?_
  rw [Section.entries_draft (hp.follows.2 s hmem) _ (FunctionDraft.isPart_of_mem_scalars hdir)]
  exact (hp.bodies s hmem).scalar dir hdir

/-- The draft of a section is known by its number. -/
theorem getElem?_drafts_iff {j : Nat} {f : FunctionDraft} :
    (Section.drafts [] p.sections)[j]? = some f ↔
      ∃ s, p.sections[j]? = some s ∧ f = s.draft (s.parentIn (p.sections.take j)) := by
  rw [Section.getElem?_drafts, Option.map_eq_some_iff]
  simp [eq_comm]

/-- A chunk is what is made of a program if the program denotes it. -/
theorem finish_iff (hall : HeaderDraft.empty.AllowsAll p.statements)
    (hfollows : Draft.Follows [] p.sections) (hmain : p.sections ≠ [])
    (harena : Arena d.functions) (hfunctions : d.functions = Section.drafts [] p.sections)
    (hheader : d.header = p.statements.foldl HeaderDraft.apply .empty) :
    d.finish = .ok c ↔ p.Denotes c := by
  have hne : d.functions ≠ [] := hfunctions ▸ Section.drafts_ne_nil hmain
  obtain ⟨hgrown, -⟩ := Draft.tree_spec harena hne
  rw [hfunctions, children_drafts] at hgrown
  have hdenotes : ∀ {j : Nat} {s : Section} {proto : Prototype}, p.sections[j]? = some s →
      ((s.draft (s.parentIn (p.sections.take j))).finish = .ok proto ↔ s.Denotes proto) :=
    fun hs => Section.finish_draft_iff (hfollows.2 _ (List.mem_of_getElem? hs)) _
  rw [Draft.finish_eq_ok_iff, hheader]
  constructor
  · rintro ⟨hfinish, -, hvalid, htree⟩
    refine ⟨(Header.statedBy_iff hall).2 ⟨hfinish, hvalid⟩, hgrown.traverse ?_ htree⟩
    intro j f proto hf hproto
    obtain ⟨s, hs, rfl⟩ := getElem?_drafts_iff.1 hf
    exact ⟨s, hs, (hdenotes hs).1 hproto⟩
  · rintro ⟨hstated, hmain⟩
    obtain ⟨hfinish, hvalid⟩ := (Header.statedBy_iff hall).1 hstated
    refine ⟨hfinish, hne, hvalid, hgrown.traverse_eq ?_ hmain⟩
    rintro j f proto hf ⟨s, hs, hproto⟩
    obtain ⟨s', hs', rfl⟩ := getElem?_drafts_iff.1 hf
    obtain rfl := Option.some.inj (hs.symm.trans hs')
    exact (hdenotes hs).2 hproto

/-- Well-formed programs are carried out. -/
theorem WellFormed.exists_reaches (hp : p.WellFormed) : ∃ d, Draft.empty.Reaches p.statements d ∧
    d.functions = Section.drafts [] p.sections := by
  obtain ⟨h, hstated⟩ := hp.header
  refine (reaches_iff ?_ fun s hs => (hp.bodies s hs).plain).2
    ⟨Header.allowsAll_of_statedBy hstated, hp.preamble, hp.follows, rfl⟩
  intro s hs
  rw [hp.preamble s hs]
  decide

/-- Well-formed programs denote a chunk. -/
theorem WellFormed.exists_denotes (hp : p.WellFormed) : ∃ c, p.Denotes c := by
  obtain ⟨h, hstated⟩ := hp.header
  have hall := Header.allowsAll_of_statedBy hstated
  obtain ⟨d, hreach, hfunctions⟩ := hp.exists_reaches
  have hheader : d.header = p.statements.foldl HeaderDraft.apply .empty := hreach.header.2
  obtain ⟨hfinish, hvalid⟩ := (Header.statedBy_iff hall).1 hstated
  rw [← hheader] at hfinish
  have hne : d.functions ≠ [] := hfunctions ▸ Section.drafts_ne_nil hp.main
  obtain ⟨c, hc⟩ := (Draft.exists_finish_iff hreach.arena).2
    ⟨⟨h, hfinish, hvalid⟩, hne, fun f hf => hp.exists_finish (hfunctions ▸ hf)⟩
  exact ⟨c, (finish_iff hall hp.follows hp.main hreach.arena hfunctions hheader).1 hc⟩

/-- A chunk that is made of the statements of a program shows that the program is well formed. -/
theorem wellFormed_of_finish (hpreamble : ∀ s ∈ p.preamble, s.kind ≠ .newFunction)
    (hsections : ∀ s ∈ p.sections, ∀ t ∈ s.body, t.kind ≠ .newFunction)
    (hreach : Draft.empty.Reaches p.statements d) (hfinish : d.finish = .ok c) :
    p.WellFormed ∧ p.Denotes c := by
  obtain ⟨hall, hkind, hfollows, hfunctions⟩ := (reaches_iff hpreamble hsections).1 ⟨d, hreach, rfl⟩
  obtain ⟨-, hheader⟩ := hreach.header
  obtain ⟨-, hne, -, -⟩ := Draft.finish_eq_ok_iff.1 hfinish
  have hmain : p.sections ≠ [] := by
    intro hnil
    rw [hnil] at hfunctions
    exact hne hfunctions
  have hdenotes := (finish_iff hall hfollows hmain hreach.arena hfunctions hheader).1 hfinish
  refine ⟨⟨hkind, ⟨c.header, hdenotes.header⟩, hmain, hfollows.1, fun s hs => ?_⟩, hdenotes⟩
  obtain ⟨-, hupvalue, hinstruction⟩ := hfollows.2 s hs
  refine ⟨hsections s hs, fun dir hdir => ?_, hupvalue, hinstruction⟩
  -- The function of the section is finished, so it has the scalar.
  obtain ⟨j, hj⟩ := List.mem_iff_getElem?.1 hs
  have hf : s.draft (s.parentIn (p.sections.take j)) ∈ d.functions := by
    rw [hfunctions]
    exact List.mem_of_getElem? (getElem?_drafts_iff.2 ⟨s, hj, rfl⟩)
  obtain ⟨proto, hproto⟩ := ((Draft.exists_finish_iff hreach.arena).1 ⟨c, hfinish⟩).2.2 _ hf
  rw [Section.finish_draft_iff (hfollows.2 s hs)] at hproto
  rw [hproto _ (FunctionDraft.isPart_of_mem_scalars hdir)]
  fin_cases hdir <;> rfl

end Program

theorem parse_eq_ok_iff_done {source : Bytes} {c : Chunk} : parse source = .ok c ↔
    ∃ d, (tokenize source).foldl Assembly.feed Assembly.start = .done d ∧ d.finish = .ok c := by
  rw [parse_eq]
  cases (tokenize source).foldl Assembly.feed Assembly.start with
  | fail failure => simp [Assembly.conclude]
  | next resume => simp [Assembly.conclude]
  | done d =>
    cases hfinish : d.finish with
    | error cause => simp [Assembly.conclude, hfinish]
    | ok chunk => simp [Assembly.conclude, hfinish]

theorem parse_eq_ok_iff_reaches {source : Bytes} {c : Chunk} :
    parse source = .ok c ↔ ∃ ss d, Opened (tokenize source) ss ∧ Draft.empty.Reaches ss d ∧
      d.finish = .ok c := by
  simp only [parse_eq_ok_iff_done, Assembly.foldl_feed_start_iff]
  constructor
  · rintro ⟨d, ⟨ss, hopened, hreach⟩, hfinish⟩
    exact ⟨ss, d, hopened, hreach, hfinish⟩
  · rintro ⟨ss, d, hopened, hreach, hfinish⟩
    exact ⟨d, ⟨ss, hopened, hreach⟩, hfinish⟩

/-- Source is accepted exactly when its tokens are the version and a well-formed program, and it is
assembled into the chunk that the program denotes. -/
theorem parse_eq_ok_iff_denotes (source : Bytes) :
    (∀ c, parse source = .ok c ↔ ∃ p : Program, Opened (tokenize source) p.statements ∧
        p.WellFormed ∧ p.Denotes c) ∧
      ((∃ c, parse source = .ok c) ↔ ∃ p : Program, Opened (tokenize source) p.statements ∧
        p.WellFormed) := by
  have hsound : ∀ {c}, parse source = .ok c → ∃ p : Program,
      Opened (tokenize source) p.statements ∧ p.WellFormed ∧ p.Denotes c := by
    intro c h
    obtain ⟨ss, d, hopened, hreach, hfinish⟩ := parse_eq_ok_iff_reaches.1 h
    obtain ⟨p, rfl, hpreamble, hsections⟩ := Program.exists_statements_eq ss
    exact ⟨p, hopened, Program.wellFormed_of_finish hpreamble hsections hreach hfinish⟩
  have hcomplete : ∀ {p : Program} {c}, Opened (tokenize source) p.statements → p.WellFormed →
      p.Denotes c → parse source = .ok c := by
    intro p c hopened hp hdenotes
    obtain ⟨d, hreach, hfunctions⟩ := hp.exists_reaches
    obtain ⟨-, hheader⟩ := hreach.header
    refine parse_eq_ok_iff_reaches.2 ⟨p.statements, d, hopened, hreach, ?_⟩
    exact (Program.finish_iff (Header.allowsAll_of_statedBy hdenotes.header) hp.follows hp.main
      hreach.arena hfunctions hheader).2 hdenotes
  refine ⟨fun c => ⟨hsound, fun ⟨p, hopened, hp, hdenotes⟩ => hcomplete hopened hp hdenotes⟩,
    ?_, ?_⟩
  · rintro ⟨c, h⟩
    obtain ⟨p, hopened, hp, -⟩ := hsound h
    exact ⟨p, hopened, hp⟩
  · rintro ⟨p, hopened, hp⟩
    obtain ⟨c, hdenotes⟩ := hp.exists_denotes
    exact ⟨c, hcomplete hopened hp hdenotes⟩

end LuaAssembly
