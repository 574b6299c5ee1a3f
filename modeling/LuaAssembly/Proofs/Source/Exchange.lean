import Mathlib
import LuaAssembly.Proofs.Source.Placement
import LuaAssembly.Proofs.Source.Program
import LuaAssembly.Proofs.Source.Restart

/-!
# Statements in another order

Statements about different things do not see each other.  If two neighbours in accepted source are
independent, they can change places: the draft after both is the same.  So the order of the
directives of the header does not matter, nor does the order in which the lists of a function
are interleaved.
-/
namespace LuaAssembly

open Statement

/-! ## Independent statements -/

namespace Statement

/-- The first statement can be moved behind the second one.  One of them is about the header, or
both are about the same function but different parts of it, and the stack size is not moved behind
an instruction. -/
def Independent (s₁ s₂ : Statement) : Prop :=
  s₁.kind = .header ∨ s₂.kind = .header ∨
    s₁.kind = .function ∧ s₂.kind = .function ∧ s₁.directive? ≠ s₂.directive? ∧
      ¬ (s₁.directive? = some .maxStackSize ∧ s₂.directive? = none)

instance (s₁ s₂ : Statement) : Decidable (s₁.Independent s₂) :=
  inferInstanceAs (Decidable (_ ∨ _))

end Statement

namespace HeaderDraft

variable {h : HeaderDraft} {s s₁ s₂ : Statement}

theorem apply_of_kind_ne (hs : s.kind ≠ .header) : h.apply s = h := by
  cases s <;> first | rfl | exact absurd rfl hs

theorem apply_comm (h : HeaderDraft) (hne : s₁.directive? ≠ s₂.directive?) :
    (h.apply s₁).apply s₂ = (h.apply s₂).apply s₁ := by
  by_cases h₁ : s₁.kind = .header
  · cases s₁ <;> cases h₁ <;> cases s₂ <;> first | rfl | exact absurd rfl hne
  · rw [apply_of_kind_ne h₁, apply_of_kind_ne h₁]

/-- Whether a statement may stand does not depend on statements with other directives. -/
theorem allows_apply_iff (hne : s₁.directive? ≠ s₂.directive?) :
    (h.apply s₁).Allows s₂ ↔ h.Allows s₂ := by
  refine forall_congr' fun dir => forall_congr' fun hdir => ?_
  rw [entries_apply_of_ne (hdir ▸ hne)]

/-- A directive of the header does not stand twice. -/
theorem not_allows_apply_self (hkind : s₁.kind = .header) (heq : s₁.directive? = s₂.directive?) :
    ¬ (h.apply s₁).Allows s₂ := by
  intro hallows
  cases hdir : s₁.directive? with
  | none =>
    rw [Statement.kind, hdir] at hkind
    cases hkind
  | some dir =>
    have hheader : dir.kind = .header := by rwa [Statement.kind, hdir] at hkind
    have hempty := hallows dir (heq ▸ hdir) hheader
    rw [entries_apply_self hdir hheader] at hempty
    cases hempty

end HeaderDraft

namespace FunctionDraft

variable {f : FunctionDraft} {s s₁ s₂ : Statement}

theorem apply_of_kind_ne (hs : s.kind ≠ .function) : f.apply s = f := by
  cases s <;> first | rfl | exact absurd rfl hs

theorem apply_comm (f : FunctionDraft) (hne : s₁.directive? ≠ s₂.directive?) :
    (f.apply s₁).apply s₂ = (f.apply s₂).apply s₁ := by
  by_cases h₁ : s₁.kind = .function
  · cases s₁ <;> cases h₁ <;> cases s₂ <;> first | rfl | exact absurd rfl hne
  · rw [apply_of_kind_ne h₁, apply_of_kind_ne h₁]

/-- A statement that may stand may also stand behind one with another directive. -/
theorem Allows.apply (hallows : f.Allows s₂) (hne : s₁.directive? ≠ s₂.directive?) :
    (f.apply s₁).Allows s₂ := by
  refine ⟨fun dir hdir hs => ?_, fun hs => ?_, fun hs => ?_⟩
  · rw [entries_apply_of_ne (hs ▸ hne)]
    exact hallows.scalar dir hdir hs
  · rw [entries_apply_of_ne (hs ▸ hne)]
    exact hallows.upvalue hs
  · by_cases hsize : s₁.directive? = some .maxStackSize
    · cases s₁ <;> cases hsize
      exact List.cons_ne_nil _ _
    · rw [entries_apply_of_ne hsize]
      exact hallows.instruction hs

/-- A statement that may stand behind another may stand in front of it, unless it is an instruction
and the other is the stack size. -/
theorem Allows.of_apply (hallows : (f.apply s₁).Allows s₂) (hne : s₁.directive? ≠ s₂.directive?)
    (hsize : ¬ (s₁.directive? = some .maxStackSize ∧ s₂.directive? = none)) : f.Allows s₂ := by
  refine ⟨fun dir hdir hs => ?_, fun hs => ?_, fun hs => ?_⟩
  · rw [← entries_apply_of_ne (s := s₁) (hs ▸ hne)]
    exact hallows.scalar dir hdir hs
  · rw [← entries_apply_of_ne (s := s₁) (hs ▸ hne)]
    exact hallows.upvalue hs
  · rw [← entries_apply_of_ne (s := s₁) fun hself => hsize ⟨hself, hs⟩]
    exact hallows.instruction hs

end FunctionDraft

/-! ## Exchanging two statements -/

namespace Draft

variable {d d' d'' : Draft} {s s₁ s₂ : Statement}

theorem update_comm (d : Draft) (hne : s₁.directive? ≠ s₂.directive?) :
    (d.update s₁).update s₂ = (d.update s₂).update s₁ := by
  simp only [update, d.header.apply_comm hne, Option.map_map, Function.comp_def,
    FunctionDraft.apply_comm _ hne]

theorem update_of_kind_eq_header (hs : s.kind = .header) :
    d.update s = { d with header := d.header.apply s } := by
  have hcurrent : ∀ f : FunctionDraft, f.apply s = f := fun f =>
    FunctionDraft.apply_of_kind_ne (by rw [hs]; decide)
  simp only [update, hcurrent, Option.map_id']

theorem Allows.update (hallows : d.Allows s₂) (hne : s₁.directive? ≠ s₂.directive?) :
    (d.update s₁).Allows s₂ := by
  rw [allows_iff] at hallows ⊢
  refine ⟨(HeaderDraft.allows_apply_iff hne).2 hallows.1, fun hk => ?_⟩
  obtain ⟨f, hf, hallows⟩ := hallows.2 hk
  exact ⟨f.apply s₁, by rw [Draft.update, hf, Option.map_some], hallows.apply hne⟩

theorem Allows.of_update (hallows : (d.update s₁).Allows s₂)
    (hne : s₁.directive? ≠ s₂.directive?)
    (hsize : ¬ (s₁.directive? = some .maxStackSize ∧ s₂.directive? = none)) : d.Allows s₂ := by
  rw [allows_iff] at hallows ⊢
  refine ⟨(HeaderDraft.allows_apply_iff hne).1 hallows.1, fun hk => ?_⟩
  obtain ⟨g, hg, hallows⟩ := hallows.2 hk
  obtain ⟨f, hf, rfl⟩ := Option.map_eq_some_iff.1 hg
  exact ⟨f, hf, hallows.of_apply hne hsize⟩

/-- Two statements that are no declarations change places. -/
theorem Reaches.exchange_updates (h : d.Reaches [s₁, s₂] d')
    (hplain₁ : s₁.kind ≠ .newFunction) (hplain₂ : s₂.kind ≠ .newFunction)
    (hne : s₁.directive? ≠ s₂.directive?)
    (hsize : ¬ (s₁.directive? = some .maxStackSize ∧ s₂.directive? = none)) :
    d.Reaches [s₂, s₁] d' := by
  simp only [cons_iff, apply_of_kind_ne hplain₁, apply_of_kind_ne hplain₂, Except.ok.injEq,
    exists_eq_left', nil_iff] at h ⊢
  obtain ⟨hallows₁, hallows₂, rfl⟩ := h
  exact ⟨hallows₂.of_update hne hsize, hallows₁.update hne.symm, d.update_comm hne⟩

theorem reaches_header_iff {ss : List Statement} (hs : s.kind = .header) :
    d.Reaches (s :: ss) d' ↔
      d.header.Allows s ∧ Reaches { d with header := d.header.apply s } ss d' := by
  have hplain : s.kind ≠ .newFunction := by rw [hs]; decide
  have hallows : d.Allows s ↔ d.header.Allows s := by
    rw [allows_iff]
    exact and_iff_left fun hk => by rw [hs] at hk; cases hk
  rw [Reaches.cons_iff, hallows, apply_of_kind_ne hplain, update_of_kind_eq_header hs]
  simp only [Except.ok.injEq, exists_eq_left']

theorem reaches_function_iff {name : Bytes} {pos : Position} {ss : List Statement} :
    d.Reaches (.function name pos :: ss) d' ↔
      ∃ parent, parentOf d.functions name = .ok parent ∧ Reaches
        { d with earlier := d.functions, current := some (.declared name parent) } ss d' := by
  have hallows : d.Allows (.function name pos) := by
    refine allows_iff.2 ⟨?_, fun hk => by cases hk⟩
    rintro _ ⟨⟩ ⟨⟩
  rw [Reaches.cons_iff]
  simp only [hallows, apply_function_iff, true_and]
  constructor
  · rintro ⟨_, ⟨parent, hparent, rfl⟩, hrest⟩
    exact ⟨parent, hparent, hrest⟩
  · rintro ⟨parent, hparent, hrest⟩
    exact ⟨_, ⟨parent, hparent, rfl⟩, hrest⟩

/-- A declaration and a directive of the header change places. -/
theorem Reaches.exchange_declaration {name : Bytes} {pos : Position} (hs : s.kind = .header) :
    d.Reaches [s, .function name pos] d' ↔ d.Reaches [.function name pos, s] d' := by
  simp only [reaches_header_iff hs, reaches_function_iff, nil_iff]
  constructor
  · rintro ⟨hallows, parent, hparent, rfl⟩
    exact ⟨parent, hparent, hallows, rfl⟩
  · rintro ⟨parent, hparent, hallows, rfl⟩
    exact ⟨hallows, parent, hparent, rfl⟩

/-- Directives of the header that are neighbours are different ones. -/
theorem Reaches.directive?_ne (h : d.Reaches [s₁, s₂] d')
    (hs : s₁.kind = .header ∨ s₂.kind = .header) : s₁.directive? ≠ s₂.directive? := by
  intro heq
  have hkind : s₁.kind = .header := by
    rcases hs with hs | hs
    · exact hs
    · rwa [Statement.kind, ← heq] at hs
  exact HeaderDraft.not_allows_apply_self hkind heq h.header.1.2.1

/-- Independent statements change places, with the same draft behind them. -/
theorem Reaches.exchange (h : d.Reaches [s₁, s₂] d') (hs : s₁.Independent s₂) :
    d.Reaches [s₂, s₁] d' := by
  rcases hs with hs | hs | ⟨hs₁, hs₂, hne, hsize⟩
  · by_cases hs₂ : s₂.kind = .newFunction
    · obtain ⟨name, pos, rfl⟩ := Statement.exists_eq_function hs₂
      exact (exchange_declaration hs).1 h
    · refine h.exchange_updates (by rw [hs]; decide) hs₂ (h.directive?_ne (.inl hs)) ?_
      rintro ⟨hsize, -⟩
      rw [Statement.kind, hsize] at hs
      cases hs
  · by_cases hs₁ : s₁.kind = .newFunction
    · obtain ⟨name, pos, rfl⟩ := Statement.exists_eq_function hs₁
      exact (exchange_declaration hs).2 h
    · refine h.exchange_updates hs₁ (by rw [hs]; decide) (h.directive?_ne (.inr hs)) ?_
      rintro ⟨-, hnone⟩
      rw [Statement.kind, hnone] at hs
      cases hs
  · exact h.exchange_updates (by rw [hs₁]; decide) (by rw [hs₂]; decide) hne hsize

end Draft

/-! ## Exchanging two phrases -/

namespace Assembly

open Reading

/-- A reading that is completed is followed by what comes next. -/
theorem foldl_feed_andThen {r : Reading Statement} {args : List Token} {s : Statement}
    (h : r.Completes args s) (k : Statement → Reading Draft) :
    args.foldl feed (r.andThen k) = k s := by
  induction r generalizing args with
  | done a =>
    obtain ⟨rfl, rfl⟩ := completes_done.1 h
    rfl
  | fail e => exact absurd h not_completes_fail
  | next resume ih =>
    obtain ⟨t, rest, rfl, hrest⟩ := completes_next.1 h
    exact ih t hrest

/-- The tokens of one statement carry it out, or fail. -/
theorem foldl_feed_phrase {us : List Token} {s : Statement} (h : Phrase us s) (d : Draft) :
    (∃ d', d.Allows s ∧ d.apply s = .ok d' ∧ us.foldl feed (.done d) = .done d') ∨
      ∃ f, us.foldl feed (.done d) = .fail f := by
  obtain ⟨t, args, rfl⟩ : ∃ t args, us = t :: args := by cases h <;> exact ⟨_, _, rfl⟩
  obtain ⟨head, hhead, hargs⟩ := Head.completes_arguments_iff.2 h
  simp only [List.foldl_cons, feed, begin, hhead]
  cases hobjection : d.objection? head with
  | some cause => exact .inr ⟨_, foldl_feed_fail _ _⟩
  | none =>
    rw [foldl_feed_andThen hargs]
    cases d.apply s with
    | ok d' => exact .inl ⟨d', (Draft.objection?_eq_none_iff hargs).1 hobjection, rfl, rfl⟩
    | error e => exact .inr ⟨_, rfl⟩

/-- The tokens of several statements carry them out, or fail. -/
theorem foldl_feed_spelled {ts : List Token} {ss : List Statement} (h : Spelled ts ss)
    (d : Draft) :
    (∃ d', d.Reaches ss d' ∧ ts.foldl feed (.done d) = .done d') ∨
      ∃ f, ts.foldl feed (.done d) = .fail f := by
  induction h generalizing d with
  | nil => exact .inl ⟨d, .nil d, rfl⟩
  | cons hs _ ih =>
    rw [List.foldl_append]
    rcases foldl_feed_phrase hs d with ⟨d₁, hallows, happly, hd₁⟩ | ⟨f, hf⟩
    · rw [hd₁]
      rcases ih d₁ with ⟨d', hreach, hd'⟩ | hfail
      · exact .inl ⟨d', .cons hallows happly hreach, hd'⟩
      · exact .inr hfail
    · rw [hf, foldl_feed_fail]
      exact .inr ⟨f, rfl⟩

theorem foldl_feed_opened {ts : List Token} {ss : List Statement} (h : Opened ts ss) :
    (∃ d, Draft.empty.Reaches ss d ∧ ts.foldl feed start = .done d) ∨
      ∃ f, ts.foldl feed start = .fail f := by
  cases h with
  | @intro v n ts ss hv hn hts =>
    have hversion : [v, n].foldl feed start = .done .empty :=
      foldl_feed_eq_done_iff.2
        ⟨[v, n], [], .empty, rfl, completes_start_iff.2 ⟨v, n, rfl, hv, hn, rfl⟩, rfl⟩
    have hfeed : (v :: n :: ts).foldl feed start = ts.foldl feed (.done .empty) := by
      rw [← hversion]
      rfl
    rw [hfeed]
    exact foldl_feed_spelled hts .empty

end Assembly

theorem Spelled.pair {u₁ u₂ : List Token} {s₁ s₂ : Statement} (h₁ : Phrase u₁ s₁)
    (h₂ : Phrase u₂ s₂) : Spelled (u₁ ++ u₂) [s₁, s₂] := by
  simpa using Spelled.cons h₁ (.cons h₂ .nil)

/-- Two neighbours that are independent have changed places, in source that starts with the version
and whole statements. -/
inductive Exchanged : List Token → List Token → Prop where
  | intro {front u₁ u₂ : List Token} (back : List Token) {ss : List Statement}
    {s₁ s₂ : Statement} (hfront : Opened front ss) (h₁ : Phrase u₁ s₁) (h₂ : Phrase u₂ s₂)
    (hs : s₁.Independent s₂) :
    Exchanged (front ++ (u₁ ++ (u₂ ++ back))) (front ++ (u₂ ++ (u₁ ++ back)))

namespace Exchanged

variable {ts ts' : List Token}

theorem perm (h : Exchanged ts ts') : ts.Perm ts' := by
  obtain ⟨back, -, -, -, -⟩ := h
  exact (List.perm_append_comm_assoc _ _ back).append_left _

/-- An exchange leads to the same draft. -/
theorem foldl_feed (h : Exchanged ts ts') {d : Draft}
    (hdone : ts.foldl Assembly.feed Assembly.start = .done d) :
    ts'.foldl Assembly.feed Assembly.start = .done d := by
  cases h with
  | @intro front u₁ u₂ back ss s₁ s₂ hfront h₁ h₂ hs =>
    rw [← List.append_assoc u₁, List.foldl_append, List.foldl_append] at hdone
    rw [← List.append_assoc u₂, List.foldl_append, List.foldl_append]
    rcases Assembly.foldl_feed_opened hfront with ⟨d₀, -, hd₀⟩ | ⟨f, hf⟩
    · rw [hd₀] at hdone ⊢
      rcases Assembly.foldl_feed_spelled (.pair h₁ h₂) d₀ with ⟨d₁, hreach, hd₁⟩ | ⟨f, hf⟩
      · rw [hd₁] at hdone
        rw [Assembly.foldl_feed_done_iff.2 ⟨_, .pair h₂ h₁, hreach.exchange hs⟩]
        exact hdone
      · rw [hf, Assembly.foldl_feed_fail] at hdone
        cases hdone
    · rw [hf, Assembly.foldl_feed_fail, Assembly.foldl_feed_fail] at hdone
      cases hdone

/-- Any number of exchanges lead to the same draft, and use the same tokens. -/
theorem reflTransGen (h : Relation.ReflTransGen Exchanged ts ts') {d : Draft}
    (hdone : ts.foldl Assembly.feed Assembly.start = .done d) :
    ts.Perm ts' ∧ ts'.foldl Assembly.feed Assembly.start = .done d := by
  induction h with
  | refl => exact ⟨.refl ts, hdone⟩
  | tail _ hstep ih => exact ⟨ih.1.trans hstep.perm, hstep.foldl_feed ih.2⟩

end Exchanged

/-! ## Programs with the same lists -/

/-- The sections are of functions with the same name, and state the same in every part. -/
structure Section.SameLists (s s' : Section) : Prop where
  name : s.name = s'.name
  parts : ∀ o, FunctionDraft.IsPart o → stated o s.body = stated o s'.body

theorem Section.Fits.congr {before before' : List Section} {s s' : Section}
    (hbefore : before.map (·.name) = before'.map (·.name)) (hname : s.name = s'.name)
    (h : s.Fits before) : s'.Fits before' := by
  rcases h with ⟨rfl, hslash⟩ | ⟨main, hmain, hunder, hmem⟩
  · exact .inl ⟨by simpa using hbefore.symm, hname ▸ hslash⟩
  · have hhead := congrArg List.head? hbefore
    rw [List.head?_map, List.head?_map, hmain] at hhead
    obtain ⟨main', hmain', hsame⟩ := Option.map_eq_some_iff.1 hhead.symm
    refine .inr ⟨main', hmain', by rw [hsame, ← hname]; exact hunder, ?_⟩
    rw [← hbefore, Section.outer, ← hname]
    exact hmem

namespace Program

/-- The program is cut at every declaration. -/
structure IsCut (p : Program) : Prop where
  preamble : ∀ s ∈ p.preamble, s.kind ≠ .newFunction
  bodies : ∀ s ∈ p.sections, ∀ t ∈ s.body, t.kind ≠ .newFunction

/-- The statements stand where they may: nothing about a function before the first declaration,
and no instruction before the stack size. -/
structure InOrder (p : Program) : Prop where
  preamble : ∀ s ∈ p.preamble, s.kind = .header
  instruction : ∀ s ∈ p.sections, ∀ front w back, s.body = front ++ .instruction w :: back →
    stated (some .maxStackSize) front ≠ []

/-- The programs differ only in the order of the directives of the header, and in how the parts of
each function are interleaved with each other and with the header. -/
structure SameLists (p p' : Program) : Prop where
  header : ∀ dir, dir.kind = .header →
    stated (some dir) p.statements = stated (some dir) p'.statements
  sections : List.Forall₂ Section.SameLists p.sections p'.sections

variable {p p' : Program} {c : Chunk}

theorem WellFormed.inOrder (h : p.WellFormed) : p.InOrder :=
  ⟨h.preamble, fun s hs => (h.bodies s hs).instruction⟩

/-- The parent of a function is found by the names alone. -/
theorem parent?_eq (p : Program) (j : Nat) : p.parent? j = (p.sections.map (·.name))[j]?.bind
    fun name => firstNamed? ((p.sections.map (·.name)).take j) (name.beforeLast 0x2F) := by
  rw [parent?, List.getElem?_map, ← List.map_take]
  cases p.sections[j]? <;> rfl

namespace SameLists

theorem names (h : p.SameLists p') :
    p.sections.map (·.name) = p'.sections.map (·.name) := by
  rw [← List.forall₂_eq_eq_eq, List.forall₂_map_left_iff, List.forall₂_map_right_iff]
  exact h.sections.imp fun _ _ hs => hs.name

theorem getElem? (h : p.SameLists p') {i : Nat} {s : Section} (hs : p.sections[i]? = some s) :
    ∃ s', p'.sections[i]? = some s' ∧ s.SameLists s' := by
  obtain ⟨hi, rfl⟩ := List.getElem?_eq_some_iff.1 hs
  have hi' : i < p'.sections.length := h.sections.length_eq ▸ hi
  exact ⟨_, List.getElem?_eq_getElem hi', h.sections.get hi hi'⟩

theorem symm (h : p.SameLists p') : p'.SameLists p :=
  ⟨fun dir hdir => (h.header dir hdir).symm,
    h.sections.flip.imp fun _ _ hs => ⟨hs.name.symm, fun o ho => (hs.parts o ho).symm⟩⟩

theorem children (h : p.SameLists p') : p.children = p'.children := by
  funext i
  simp only [Program.children, parent?_eq, h.names, h.sections.length_eq]

theorem statedBy (h : p.SameLists p') {H : Header} (hp : H.StatedBy p.statements) :
    H.StatedBy p'.statements :=
  ⟨hp.1, fun dir hdir => (h.header dir hdir).symm.trans (hp.2 dir hdir)⟩

/-- Programs with the same lists denote the same chunk. -/
theorem denotes (h : p.SameLists p') (hp : p.Denotes c) : p'.Denotes c := by
  refine ⟨h.statedBy hp.header, h.children ▸ hp.main.imp fun i proto hproto => ?_⟩
  obtain ⟨s, hs, hproto⟩ := hproto
  obtain ⟨s', hs', hsame⟩ := h.getElem? hs
  exact ⟨s', hs', fun o ho => (hsame.parts o ho).symm.trans (hproto o ho)⟩

/-- A program in order is well formed if another one with the same lists is. -/
theorem wellFormed (h : p.SameLists p') (hp : p.WellFormed) (hcut : p'.IsCut)
    (horder : p'.InOrder) : p'.WellFormed := by
  obtain ⟨H, hH⟩ := hp.header
  refine ⟨horder.preamble, ⟨H, h.statedBy hH⟩, ?_, fun before s' after heq => ?_, fun s' hs' => ?_⟩
  · intro hnil
    exact hp.main (List.map_eq_nil_iff.1 (h.names.trans (by rw [hnil, List.map_nil])))
  · have hnames := h.names
    rw [heq, List.map_append, List.map_cons, List.map_eq_append_iff] at hnames
    obtain ⟨front, rest, hfront, hbefore, hrest⟩ := hnames
    obtain ⟨s, back, rfl, hname, -⟩ := List.map_eq_cons_iff.1 hrest
    exact (hp.names front s back hfront).congr hbefore hname
  · obtain ⟨i, hi⟩ := List.mem_iff_getElem?.1 hs'
    obtain ⟨s, hs, hsame⟩ := h.symm.getElem? hi
    have hbody := hp.bodies s (List.mem_of_getElem? hs)
    refine ⟨hcut.bodies s' hs', fun dir hdir => ?_, ?_, horder.instruction s' hs'⟩
    · rw [hsame.parts _ (FunctionDraft.isPart_of_mem_scalars hdir)]
      exact hbody.scalar dir hdir
    · rw [hsame.parts _ FunctionDraft.isPart_upvalue]
      exact hbody.upvalue

end SameLists

end Program

/-! ## Source in another order -/

/-- However the tokens are cut into a program, it is this program that was assembled. -/
theorem Program.parse_eq_ok_iff {source : Bytes} {c : Chunk} {p : Program} (hcut : p.IsCut)
    (hopened : Opened (tokenize source) p.statements) :
    parse source = .ok c ↔ p.WellFormed ∧ p.Denotes c := by
  constructor
  · intro h
    obtain ⟨d, hdone, hfinish⟩ := parse_eq_ok_iff_done.1 h
    rcases Assembly.foldl_feed_opened hopened with ⟨d', hreach, hd'⟩ | ⟨f, hf⟩
    · obtain rfl : d' = d := Reading.done.inj (hd'.symm.trans hdone)
      exact wellFormed_of_finish hcut.preamble hcut.bodies hreach hfinish
    · rw [hf] at hdone
      cases hdone
  · rintro ⟨hp, hdenotes⟩
    obtain ⟨d, hreach, hfunctions⟩ := hp.exists_reaches
    refine parse_eq_ok_iff_reaches.2 ⟨p.statements, d, hopened, hreach, ?_⟩
    exact (finish_iff (Header.allowsAll_of_statedBy hdenotes.header) hp.follows hp.main
      hreach.arena hfunctions hreach.header.2).2 hdenotes

/-- Independent neighbours change places.  Whatever exchanges are made in accepted source, their
result can be written down, and all source with these tokens is assembled into the same chunk.  So
the order of the directives of the header, and the order of different lists of a function, do not
matter: source with the same lists is accepted exactly when every statement stands where it may,
and never gives another chunk. -/
theorem parse_of_exchanged {source : Bytes} {c : Chunk} (h : parse source = .ok c) :
    (∀ ts, Relation.ReflTransGen Exchanged (tokenize source) ts →
      (tokenize (laidOut ts)).map Token.shape = ts.map Token.shape ∧
        ∀ source', (tokenize source').map Token.shape = ts.map Token.shape →
          parse source' = .ok c) ∧
      ∀ (source' : Bytes) (p p' : Program), p.IsCut → p'.IsCut →
        Opened (tokenize source) p.statements → Opened (tokenize source') p'.statements →
        p.SameLists p' →
          (parse source' = .ok c ↔ p'.InOrder) ∧ ∀ c', parse source' = .ok c' → c' = c := by
  refine ⟨fun ts hts => ?_, fun source' p p' hcut hcut' hopened hopened' hsame => ?_⟩
  · obtain ⟨d, hdone, hfinish⟩ := parse_eq_ok_iff_done.1 h
    obtain ⟨hperm, hdone⟩ := Exchanged.reflTransGen hts hdone
    refine ⟨shapes_tokenize_laidOut fun t ht => ?_, fun source' hsource => ?_⟩
    · obtain ⟨before, after, hsplit⟩ := List.append_of_mem (hperm.mem_iff.2 ht)
      exact (tokenize_split hsplit).1
    · have halike := Assembly.alike_foldl_feed Assembly.alike_start hsource
      rw [hdone] at halike
      exact parse_eq_ok_iff_done.2 ⟨d, halike.eq_done, hfinish⟩
  · obtain ⟨hp, hdenotes⟩ := (Program.parse_eq_ok_iff hcut hopened).1 h
    have hiff : ∀ c', parse source' = .ok c' ↔ p'.WellFormed ∧ p'.Denotes c' := fun c' =>
      Program.parse_eq_ok_iff hcut' hopened'
    have horder : p'.InOrder → parse source' = .ok c := fun horder =>
      (hiff c).2 ⟨hsame.wellFormed hp hcut' horder, hsame.denotes hdenotes⟩
    refine ⟨⟨fun h' => ((hiff c).1 h').1.inOrder, horder⟩, fun c' h' => ?_⟩
    exact Except.ok.inj (h'.symm.trans (horder ((hiff c').1 h').1.inOrder))

/-- The statements of `plainSource` behind those that change places. -/
def plainRest : Bytes :=
  [ utf8 "\n.source \"\" ", utf8 ".lastlinedefined 9 ", utf8 ".numparams 0 .is_vararg 0 ",
    utf8 ".maxstacksize 2\n", utf8 "return r0 1\n", utf8 ".endianness LITTLE ",
    utf8 ".int_size 4 .size_t_size 4 ", utf8 ".instruction_size 4 ",
    utf8 ".number_format float 8\n" ].flatten

/-- Source in which header and function are mixed. -/
def plainSource : Bytes :=
  utf8 ".version 5.1 .format 0 .function m .linedefined 3 .line 7" ++ plainRest

/-- The same with the format moved into the function, and the first line moved to its start. -/
def movedSource : Bytes :=
  utf8 ".version 5.1 .function m .format 0 .line 7 .linedefined 3" ++ plainRest

/-- The chunk that both describe. -/
def plainChunk : Chunk where
  header := ⟨0, 1, 4, 4, 4, 8, false⟩
  main := .node
    { source := [], lineDefined := 3, lastLineDefined := 9, numParams := 0, isVararg := 0,
      maxStackSize := 2, code := [0x0080001E], constants := [], lines := [7], locals := [],
      upvalues := [] }
    []

/-- The tokens of a directive and its argument, which stand in the first line. -/
def pairAt (offset : Int) (directive argument : Bytes) : List Token :=
  [⟨.word, directive, ⟨offset, 1, offset + 1⟩⟩,
    ⟨.word, argument, Position.shift ⟨offset, 1, offset + 1⟩ (directive.length + 1)⟩]

theorem parse_of_exchanged_plainSource :
    parse plainSource = .ok plainChunk ∧ parse movedSource = .ok plainChunk := by
  have hparse : parse plainSource = .ok plainChunk := by decide +kernel
  refine ⟨hparse, ?_⟩
  have hversion : Opened (pairAt 0 (utf8 ".version") (utf8 "5.1")) [] := .intro rfl rfl .nil
  have hformat : Phrase (pairAt 13 (utf8 ".format") (utf8 "0")) (.format 0) :=
    .directive rfl (.format (Argument.integer_eq_ok_iff.1 rfl))
  have hmain : Phrase (pairAt 23 (utf8 ".function") (utf8 "m"))
      (.function (utf8 "m") ⟨33, 1, 34⟩) :=
    .directive rfl (.function (Argument.name_eq_ok_iff.1 rfl))
  have hdefined : Phrase (pairAt 35 (utf8 ".linedefined") (utf8 "3")) (.lineDefined 3) :=
    .directive rfl (.lineDefined (Argument.integer_eq_ok_iff.1 rfl))
  have hline : Phrase (pairAt 50 (utf8 ".line") (utf8 "7")) (.line 7) :=
    .directive rfl (.line (Argument.integer_eq_ok_iff.1 rfl))
  have hfront := Spelled.pair hformat hmain
  have hdeclared : Opened (pairAt 0 (utf8 ".version") (utf8 "5.1") ++
      (pairAt 13 (utf8 ".format") (utf8 "0") ++ pairAt 23 (utf8 ".function") (utf8 "m")))
      [.format 0, .function (utf8 "m") ⟨33, 1, 34⟩] :=
    .intro rfl rfl hfront
  -- First the two parts of the function change places, then the format and the declaration.
  have hparts := Exchanged.intro ((tokenize plainSource).drop 10) hdeclared hdefined hline
    (by decide)
  have hheader := Exchanged.intro (pairAt 50 (utf8 ".line") (utf8 "7") ++
    (pairAt 35 (utf8 ".linedefined") (utf8 "3") ++ (tokenize plainSource).drop 10))
    hversion hformat hmain (by decide)
  have hsteps := (Relation.ReflTransGen.single hparts).tail hheader
  refine ((parse_of_exchanged hparse).1 _ (Eq.mpr (congrArg₂ _ ?_ rfl) hsteps)).2 movedSource ?_
  · decide +kernel
  · decide +kernel

end LuaAssembly
