import Mathlib
import LuaAssembly.Proofs.Source.Steps

/-!
# Drafts as lists of statements

What a draft holds can be listed again: `entries` gives, for each directive, the statements that
put it there.  A statement that may stand at its place adds itself to the entries of its own
directive and changes no others.  So the entries after a run are the statements of the run, and
which runs are possible is told by counting: scalars stand once, upvalues at most 255 times, and
instructions after the stack size.
-/
namespace LuaAssembly

namespace Statement

/-- What a statement is about.  Instructions are about the current function. -/
def kind (s : Statement) : DirectiveKind :=
  match s.directive? with
  | some dir => dir.kind
  | none => .function

/-- The statements behind a directive, or the instructions. -/
def stated (o : Option Directive) (ss : List Statement) : List Statement :=
  ss.filter fun s => s.directive? = o

@[simp] theorem stated_nil (o : Option Directive) : stated o [] = [] := rfl

theorem stated_cons (o : Option Directive) (s : Statement) (ss : List Statement) :
    stated o (s :: ss) = if s.directive? = o then s :: stated o ss else stated o ss := by
  by_cases h : s.directive? = o <;> simp [stated, h]

@[simp] theorem stated_append (o : Option Directive) (ss ts : List Statement) :
    stated o (ss ++ ts) = stated o ss ++ stated o ts :=
  List.filter_append ss ts

end Statement

open Statement

/-! ## Headers -/

namespace HeaderDraft

variable {h : HeaderDraft} {s : Statement} {ss : List Statement} {dir : Directive}

/-- What the header holds for a directive. -/
def entries (h : HeaderDraft) : Directive → List Statement
  | .format => h.format.toList.map .format
  | .endianness => h.endianness.toList.map .endianness
  | .intSize => h.intSize.toList.map .intSize
  | .sizeTSize => h.sizeTSize.toList.map .sizeTSize
  | .instructionSize => h.instructionSize.toList.map .instructionSize
  | .numberFormat => h.numberFormat.toList.map fun n => .numberFormat n.1 n.2
  | _ => []

/-- A field of the header is set once. -/
def Allows (h : HeaderDraft) (s : Statement) : Prop :=
  ∀ dir, s.directive? = some dir → dir.kind = .header → h.entries dir = []

theorem allows_iff (hs : s.directive? = some dir) :
    h.Allows s ↔ (dir.kind = .header → h.entries dir = []) := by
  constructor
  · exact fun hallows hdir => hallows dir hs hdir
  · intro hempty dir' hs' hdir
    obtain rfl := Option.some.inj (hs.symm.trans hs')
    exact hempty hdir

theorem objection?_eq_none_iff (hdir : dir.kind = .header) :
    h.objection? dir = none ↔ h.entries dir = [] := by
  cases dir <;> cases hdir <;> simp [objection?, entries]

theorem entries_apply_of_ne (hs : s.directive? ≠ some dir) :
    (h.apply s).entries dir = h.entries dir := by
  cases s <;> cases dir <;> simp [apply, entries, directive?] at hs ⊢

theorem entries_apply_self (hs : s.directive? = some dir) (hdir : dir.kind = .header) :
    (h.apply s).entries dir = [s] := by
  cases s <;> cases hs <;> simp [apply, entries, Directive.kind] at hdir ⊢

/-- A statement adds itself to the entries of its directive. -/
theorem entries_apply (hallows : h.Allows s) (hdir : dir.kind = .header) :
    (h.apply s).entries dir = h.entries dir ++ stated (some dir) [s] := by
  rw [stated_cons]
  split_ifs with hs
  · rw [entries_apply_self hs hdir, hallows dir hs hdir]
    rfl
  · rw [entries_apply_of_ne hs, stated_nil, List.append_nil]

/-- All statements may stand, one after the other. -/
def AllowsAll : HeaderDraft → List Statement → Prop
  | _, [] => True
  | h, s :: ss => h.Allows s ∧ (h.apply s).AllowsAll ss

theorem allowsAll_append {ts : List Statement} :
    h.AllowsAll (ss ++ ts) ↔ h.AllowsAll ss ∧ (ss.foldl apply h).AllowsAll ts := by
  induction ss generalizing h with
  | nil => simp [AllowsAll]
  | cons s ss ih => simp [AllowsAll, ih, and_assoc]

theorem entries_foldl (hall : h.AllowsAll ss) (hdir : dir.kind = .header) :
    (ss.foldl apply h).entries dir = h.entries dir ++ stated (some dir) ss := by
  induction ss generalizing h with
  | nil => simp
  | cons s ss ih =>
    rw [List.foldl_cons, ih hall.2, entries_apply hall.1 hdir, List.append_assoc,
      ← stated_append, List.singleton_append]

theorem length_entries_le (h : HeaderDraft) (dir : Directive) : (h.entries dir).length ≤ 1 := by
  have hle : ∀ {α : Type} (o : Option α) (f : α → Statement), (o.toList.map f).length ≤ 1 := by
    intro α o f
    cases o <;> simp
  cases dir with
  | format => exact hle _ _
  | endianness => exact hle _ _
  | intSize => exact hle _ _
  | sizeTSize => exact hle _ _
  | instructionSize => exact hle _ _
  | numberFormat => exact hle _ _
  | _ => exact Nat.zero_le 1

/-- The statements may stand one after the other when no field is set twice. -/
theorem allowsAll_iff : h.AllowsAll ss ↔
    ∀ dir, dir.kind = .header → (h.entries dir ++ stated (some dir) ss).length ≤ 1 := by
  induction ss generalizing h with
  | nil => simpa [AllowsAll] using fun dir _ => h.length_entries_le dir
  | cons s ss ih =>
    rw [AllowsAll, ih]
    constructor
    · rintro ⟨hallows, hrest⟩ dir hdir
      have := hrest dir hdir
      rwa [entries_apply hallows hdir, List.append_assoc, ← stated_append] at this
    · intro hcount
      have hallows : h.Allows s := by
        intro dir hs hdir
        have := hcount dir hdir
        rw [stated_cons, if_pos hs, List.length_append, List.length_cons] at this
        exact List.eq_nil_of_length_eq_zero (by omega)
      refine ⟨hallows, fun dir hdir => ?_⟩
      rw [entries_apply hallows hdir, List.append_assoc, ← stated_append]
      exact hcount dir hdir

end HeaderDraft

/-- What a header says, directive by directive. -/
def Header.entries (h : Header) : Directive → List Statement
  | .format => [.format h.format]
  | .endianness => (ByteOrder.ofTag? h.endianness).toList.map .endianness
  | .intSize => [.intSize h.intSize]
  | .sizeTSize => [.sizeTSize h.sizeTSize]
  | .instructionSize => [.instructionSize h.instructionSize]
  | .numberFormat => [.numberFormat h.integral h.numberSize]
  | _ => []

theorem eq_some_of_toList_map {α : Type} {f : α → Statement} (hf : Function.Injective f)
    {o : Option α} {a : α} (h : o.toList.map f = [f a]) : o = some a := by
  cases o with
  | none => simp at h
  | some b => rw [hf (List.singleton_inj.1 h)]

namespace HeaderDraft

variable {hd : HeaderDraft} {h : Header}

theorem eq_headerDraft_of_finish (hfinish : hd.finish = .ok h) :
    ∃ o : ByteOrder, h.endianness = o.tag ∧ hd = Describes.headerDraft h o := by
  obtain ⟨format, endianness, intSize, sizeTSize, instructionSize, numberFormat⟩ := hd
  -- Whatever is missing, there is no header.
  cases format with
  | none => cases hfinish
  | some _ =>
  cases endianness with
  | none => cases hfinish
  | some o =>
  cases intSize with
  | none => cases hfinish
  | some _ =>
  cases sizeTSize with
  | none => cases hfinish
  | some _ =>
  cases instructionSize with
  | none => cases hfinish
  | some _ =>
  cases numberFormat with
  | none => cases hfinish
  | some _ =>
  cases hfinish
  exact ⟨o, rfl, rfl⟩

/-- A header is finished when it holds what the header says. -/
theorem finish_eq_ok_iff {o : ByteOrder} (ho : ByteOrder.ofTag? h.endianness = some o) :
    hd.finish = .ok h ↔ ∀ dir, dir.kind = .header → hd.entries dir = h.entries dir := by
  constructor
  · intro hfinish dir hdir
    obtain ⟨o', htag, rfl⟩ := eq_headerDraft_of_finish hfinish
    cases dir with
    | endianness =>
      rw [Header.entries, htag, ByteOrder.ofTag?_tag]
      rfl
    | _ => rfl
  · intro hentries
    have horder := hentries .endianness rfl
    rw [Header.entries, ho] at horder
    have hnumber := hentries .numberFormat rfl
    have hdraft : hd = Describes.headerDraft h o := by
      obtain ⟨format, endianness, intSize, sizeTSize, instructionSize, numberFormat⟩ := hd
      obtain rfl : format = some h.format :=
        eq_some_of_toList_map (fun _ _ => Statement.format.inj) (hentries .format rfl)
      obtain rfl : endianness = some o :=
        eq_some_of_toList_map (fun _ _ => Statement.endianness.inj) horder
      obtain rfl : intSize = some h.intSize :=
        eq_some_of_toList_map (fun _ _ => Statement.intSize.inj) (hentries .intSize rfl)
      obtain rfl : sizeTSize = some h.sizeTSize :=
        eq_some_of_toList_map (fun _ _ => Statement.sizeTSize.inj) (hentries .sizeTSize rfl)
      obtain rfl : instructionSize = some h.instructionSize :=
        eq_some_of_toList_map (fun _ _ => Statement.instructionSize.inj) (hentries .instructionSize rfl)
      obtain rfl : numberFormat = some (h.integral, h.numberSize) := by
        cases numberFormat with
        | none => cases hnumber
        | some n => simpa [entries, Header.entries, Prod.ext_iff] using hnumber
      rfl
    rw [hdraft]
    exact Describes.headerDraft_finish ho

end HeaderDraft

/-! ## Functions -/

/-- The directives of which a function has exactly one each. -/
def Directive.scalars : List Directive :=
  [.source, .lineDefined, .lastLineDefined, .numParams, .isVararg, .maxStackSize]

theorem Directive.kind_of_mem_scalars {dir : Directive} (h : dir ∈ scalars) :
    dir.kind = .function := by
  revert dir
  decide

namespace FunctionDraft

variable {f : FunctionDraft} {s : Statement} {ss : List Statement} {o : Option Directive}
  {dir : Directive}

/-- What the function holds for a directive, or its instructions. -/
def entries (f : FunctionDraft) : Option Directive → List Statement
  | some .source => f.source.toList.map .source
  | some .lineDefined => f.lineDefined.toList.map .lineDefined
  | some .lastLineDefined => f.lastLineDefined.toList.map .lastLineDefined
  | some .numParams => f.numParams.toList.map .numParams
  | some .isVararg => f.isVararg.toList.map .isVararg
  | some .maxStackSize => f.maxStackSize.toList.map .maxStackSize
  | some .constant => f.constants.map .constant
  | some .line => f.lines.map .line
  | some .localVar => f.locals.map .localVar
  | some .upvalue => f.upvalues.map .upvalue
  | none => f.code.map .instruction
  | _ => []

theorem entries_declared (name : Bytes) (parent : Option Nat) (o : Option Directive) :
    (declared name parent).entries o = [] := by
  rcases o with _ | dir
  · rfl
  · cases dir <;> rfl

/-- A scalar is set once, there is room for 255 upvalues, and instructions stand after the stack
size. -/
structure Allows (f : FunctionDraft) (s : Statement) : Prop where
  scalar : ∀ dir ∈ Directive.scalars, s.directive? = some dir → f.entries (some dir) = []
  upvalue : s.directive? = some .upvalue →
    (f.entries (some .upvalue)).length ≠ upvalueLimit
  instruction : s.directive? = none → f.entries (some .maxStackSize) ≠ []

/-- Statements about something else are no matter of the function. -/
theorem allows_of_kind_ne (hs : s.kind ≠ .function) : f.Allows s := by
  refine ⟨fun dir hdir hself => ?_, fun hself => ?_, fun hself => ?_⟩
  · rw [Statement.kind, hself] at hs
    exact absurd (Directive.kind_of_mem_scalars hdir) hs
  · rw [Statement.kind, hself] at hs
    exact absurd rfl hs
  · rw [Statement.kind, hself] at hs
    exact absurd rfl hs

theorem objection?_eq_none_iff (hs : s.directive? = some dir) :
    f.objection? dir = none ↔ f.Allows s := by
  constructor
  · intro h
    refine ⟨fun dir' hdir' hs' => ?_, fun hs' => ?_, fun hs' => ?_⟩
    · obtain rfl := Option.some.inj (hs.symm.trans hs')
      fin_cases hdir' <;> simpa [objection?, entries] using h
    · obtain rfl := Option.some.inj (hs.symm.trans hs')
      simpa [objection?, entries] using h
    · rw [hs] at hs'
      cases hs'
  · rintro ⟨hscalar, hupvalue, -⟩
    by_cases hdir : dir ∈ Directive.scalars
    · have hempty := hscalar dir hdir hs
      fin_cases hdir <;> simpa [objection?, entries] using hempty
    · cases dir with
      | upvalue => simpa [objection?, entries] using hupvalue hs
      | _ => simp [objection?, Directive.scalars] at hdir ⊢

theorem entries_apply_of_ne (hs : s.directive? ≠ o) : (f.apply s).entries o = f.entries o := by
  rcases o with _ | dir
  · cases s <;> simp [apply, entries, directive?] at hs ⊢
  · cases s <;> cases dir <;> simp [apply, entries, directive?] at hs ⊢

theorem entries_apply_self (hallows : f.Allows s) (hs : s.kind = .function) :
    (f.apply s).entries s.directive? = f.entries s.directive? ++ [s] := by
  -- A scalar that may stand is the first of its directive.
  have hscalar : ∀ dir ∈ Directive.scalars, s.directive? = some dir →
      (f.apply s).entries (some dir) = [s] →
      (f.apply s).entries s.directive? = f.entries s.directive? ++ [s] := by
    intro dir hdir hs happly
    rw [hs, happly, hallows.scalar dir hdir hs]
    rfl
  cases s with
  | source n => exact hscalar .source (by decide) rfl rfl
  | lineDefined n => exact hscalar .lineDefined (by decide) rfl rfl
  | lastLineDefined n => exact hscalar .lastLineDefined (by decide) rfl rfl
  | numParams n => exact hscalar .numParams (by decide) rfl rfl
  | isVararg n => exact hscalar .isVararg (by decide) rfl rfl
  | maxStackSize n => exact hscalar .maxStackSize (by decide) rfl rfl
  | constant k => simp [apply, entries, directive?]
  | line n => simp [apply, entries, directive?]
  | localVar v => simp [apply, entries, directive?]
  | upvalue u => simp [apply, entries, directive?]
  | instruction w => simp [apply, entries, directive?]
  | _ => cases hs

/-- A statement adds itself to the entries of its directive. -/
theorem entries_apply (hallows : f.Allows s) (ho : s.directive? = o → s.kind = .function) :
    (f.apply s).entries o = f.entries o ++ stated o [s] := by
  rw [stated_cons]
  split_ifs with hs
  · rw [← hs, entries_apply_self hallows (ho hs), stated_nil]
  · rw [entries_apply_of_ne hs, stated_nil, List.append_nil]

/-- All statements may stand, one after the other. -/
def AllowsAll : FunctionDraft → List Statement → Prop
  | _, [] => True
  | f, s :: ss => f.Allows s ∧ (f.apply s).AllowsAll ss

/-- A directive of functions, or none: the entries that a function has. -/
def IsPart (o : Option Directive) : Prop :=
  ∀ dir, o = some dir → dir.kind = .function

theorem kind_of_isPart (ho : IsPart o) (hs : s.directive? = o) : s.kind = .function := by
  rw [Statement.kind, hs]
  cases o with
  | none => rfl
  | some dir => exact ho dir rfl

theorem isPart_of_mem_scalars (hdir : dir ∈ Directive.scalars) : IsPart (some dir) := by
  rintro _ ⟨⟩
  exact Directive.kind_of_mem_scalars hdir

theorem isPart_upvalue : IsPart (some .upvalue) := by
  rintro _ ⟨⟩
  rfl

theorem entries_foldl (hall : f.AllowsAll ss) (ho : IsPart o) :
    (ss.foldl apply f).entries o = f.entries o ++ stated o ss := by
  induction ss generalizing f with
  | nil => simp
  | cons s ss ih =>
    rw [List.foldl_cons, ih hall.2, entries_apply hall.1 (kind_of_isPart ho), List.append_assoc,
      ← stated_append, List.singleton_append]

theorem length_entries_le (hdir : dir ∈ Directive.scalars) : (f.entries (some dir)).length ≤ 1 := by
  have hle : ∀ {α : Type} (v : Option α) (g : α → Statement), (v.toList.map g).length ≤ 1 := by
    intro α v g
    cases v <;> simp
  fin_cases hdir <;> exact hle _ _

/-- What decides whether statements may stand one after the other, behind given entries. -/
structure Orderly (before : Option Directive → List Statement) (ss : List Statement) : Prop where
  scalar : ∀ dir ∈ Directive.scalars, (before (some dir) ++ stated (some dir) ss).length ≤ 1
  upvalue : (before (some .upvalue) ++ stated (some .upvalue) ss).length ≤ upvalueLimit
  instruction : ∀ front w back, ss = front ++ .instruction w :: back →
    before (some .maxStackSize) ++ stated (some .maxStackSize) front ≠ []

theorem orderly_cons_iff {before : Option Directive → List Statement} :
    Orderly before (s :: ss) ↔
      Orderly (fun o => before o ++ stated o [s]) ss ∧
        (s.directive? = none → before (some .maxStackSize) ≠ []) := by
  constructor
  · rintro ⟨hscalar, hupvalue, hinstruction⟩
    refine ⟨⟨fun dir hdir => ?_, ?_, fun front w back hss => ?_⟩, fun hs => ?_⟩
    · rw [List.append_assoc, ← stated_append]
      exact hscalar dir hdir
    · rw [List.append_assoc, ← stated_append]
      exact hupvalue
    · rw [List.append_assoc, ← stated_append]
      exact hinstruction (s :: front) w back (by rw [hss, List.cons_append])
    · cases s <;> cases hs
      simpa using hinstruction [] _ ss rfl
  · rintro ⟨⟨hscalar, hupvalue, hinstruction⟩, hs⟩
    refine ⟨fun dir hdir => ?_, ?_, fun front w back hss => ?_⟩
    · have := hscalar dir hdir
      rwa [List.append_assoc, ← stated_append] at this
    · rwa [List.append_assoc, ← stated_append] at hupvalue
    · cases front with
      | nil =>
        obtain ⟨rfl, rfl⟩ := List.cons.inj hss
        simpa using hs rfl
      | cons t front =>
        obtain ⟨rfl, rfl⟩ := List.cons.inj hss
        have := hinstruction front w back rfl
        rwa [List.append_assoc, ← stated_append] at this

theorem Orderly.congr {before before' : Option Directive → List Statement}
    (heq : ∀ o, IsPart o → before o = before' o) (h : Orderly before ss) : Orderly before' ss := by
  refine ⟨fun dir hdir => ?_, ?_, fun front w back hss => ?_⟩
  · rw [← heq _ (isPart_of_mem_scalars hdir)]
    exact h.scalar dir hdir
  · rw [← heq _ isPart_upvalue]
    exact h.upvalue
  · rw [← heq _ (isPart_of_mem_scalars (by decide))]
    exact h.instruction front w back hss

/-- The first of orderly statements may stand. -/
theorem allows_of_orderly (h : Orderly (fun o => f.entries o ++ stated o [s]) ss)
    (hs : s.directive? = none → f.entries (some .maxStackSize) ≠ []) : f.Allows s := by
  refine ⟨fun dir hdir hself => ?_, fun hself => ?_, hs⟩
  · have hcount := h.scalar dir hdir
    simp only [stated_cons, hself, if_true, List.length_append, List.length_cons] at hcount
    exact List.eq_nil_of_length_eq_zero (by omega)
  · have hcount := h.upvalue
    simp only [stated_cons, hself, if_true, List.length_append, List.length_cons] at hcount
    omega

/-- The statements may stand one after the other when they are orderly. -/
theorem allowsAll_iff (hf : f.upvalues.length ≤ upvalueLimit) :
    f.AllowsAll ss ↔ Orderly f.entries ss := by
  induction ss generalizing f with
  | nil =>
    refine iff_of_true trivial ⟨fun dir hdir => ?_, ?_, fun front w back hss => ?_⟩
    · simpa using length_entries_le hdir
    · simpa [entries] using hf
    · simp at hss
  | cons s ss ih =>
    rw [AllowsAll, orderly_cons_iff]
    have hentries : f.Allows s → ∀ o, IsPart o →
        (f.apply s).entries o = f.entries o ++ stated o [s] :=
      fun hallows o ho => entries_apply hallows (kind_of_isPart ho)
    have hroom : f.Allows s → (f.apply s).upvalues.length ≤ upvalueLimit := by
      intro hallows
      have hlength := congrArg List.length (hentries hallows _ isPart_upvalue)
      have hne := hallows.upvalue
      rw [stated_cons] at hlength
      split_ifs at hlength with hself
      · have := hne hself
        simp [entries] at hlength this
        omega
      · simp [entries] at hlength
        omega
    constructor
    · rintro ⟨hallows, hrest⟩
      rw [ih (hroom hallows)] at hrest
      exact ⟨hrest.congr (hentries hallows), hallows.instruction⟩
    · rintro ⟨horderly, hs⟩
      have hallows := allows_of_orderly horderly hs
      refine ⟨hallows, (ih (hroom hallows)).2 (horderly.congr fun o ho => ?_)⟩
      exact (hentries hallows o ho).symm

end FunctionDraft

/-- What a prototype says, directive by directive. -/
def Prototype.entries (p : Prototype) : Option Directive → List Statement
  | some .source => [.source p.source]
  | some .lineDefined => [.lineDefined p.lineDefined]
  | some .lastLineDefined => [.lastLineDefined p.lastLineDefined]
  | some .numParams => [.numParams p.numParams]
  | some .isVararg => [.isVararg p.isVararg]
  | some .maxStackSize => [.maxStackSize p.maxStackSize]
  | some .constant => p.constants.map .constant
  | some .line => p.lines.map .line
  | some .localVar => p.locals.map .localVar
  | some .upvalue => p.upvalues.map .upvalue
  | none => p.code.map .instruction
  | _ => []

namespace FunctionDraft

variable {f : FunctionDraft} {p : Prototype}

/-- A function is finished when it holds what the prototype says. -/
theorem finish_eq_ok_iff : f.finish = .ok p ↔ ∀ o, IsPart o → f.entries o = p.entries o := by
  constructor
  · intro hfinish o _
    rw [eq_ofPrototype_of_finish hfinish]
    rcases o with _ | dir
    · rfl
    · cases dir <;> rfl
  · intro hentries
    have hpart : ∀ dir : Directive, dir.kind = .function →
        f.entries (some dir) = p.entries (some dir) :=
      fun dir hdir => hentries _ (by rintro _ ⟨⟩; exact hdir)
    have hlist : ∀ {α : Type} {g : α → Statement} {xs ys : List α}, Function.Injective g →
        xs.map g = ys.map g → xs = ys := fun hg h => List.map_injective_iff.2 hg h
    have hdraft : f = .ofPrototype f.name f.parent p := by
      obtain ⟨name, parent, source, lineDefined, lastLineDefined, numParams, isVararg,
        maxStackSize, code, constants, lines, locals, upvalues⟩ := f
      obtain rfl : source = some p.source :=
        eq_some_of_toList_map (fun _ _ => Statement.source.inj) (hpart .source rfl)
      obtain rfl : lineDefined = some p.lineDefined :=
        eq_some_of_toList_map (fun _ _ => Statement.lineDefined.inj) (hpart .lineDefined rfl)
      obtain rfl : lastLineDefined = some p.lastLineDefined :=
        eq_some_of_toList_map (fun _ _ => Statement.lastLineDefined.inj)
          (hpart .lastLineDefined rfl)
      obtain rfl : numParams = some p.numParams :=
        eq_some_of_toList_map (fun _ _ => Statement.numParams.inj) (hpart .numParams rfl)
      obtain rfl : isVararg = some p.isVararg :=
        eq_some_of_toList_map (fun _ _ => Statement.isVararg.inj) (hpart .isVararg rfl)
      obtain rfl : maxStackSize = some p.maxStackSize :=
        eq_some_of_toList_map (fun _ _ => Statement.maxStackSize.inj) (hpart .maxStackSize rfl)
      obtain rfl : code = p.code :=
        hlist (fun _ _ => Statement.instruction.inj) (hentries none (by rintro _ ⟨⟩))
      obtain rfl : constants = p.constants :=
        hlist (fun _ _ => Statement.constant.inj) (hpart .constant rfl)
      obtain rfl : lines = p.lines := hlist (fun _ _ => Statement.line.inj) (hpart .line rfl)
      obtain rfl : locals = p.locals :=
        hlist (fun _ _ => Statement.localVar.inj) (hpart .localVar rfl)
      obtain rfl : upvalues = p.upvalues :=
        hlist (fun _ _ => Statement.upvalue.inj) (hpart .upvalue rfl)
      rfl
    rw [hdraft]
    exact finish_ofPrototype _ _ p

/-- Some prototype is what a function with one entry for each scalar says. -/
theorem exists_finish_eq_ok (h : ∀ dir ∈ Directive.scalars, (f.entries (some dir)).length = 1) :
    ∃ p, f.finish = .ok p := by
  have hsome : ∀ {α : Type} {v : Option α} {g : α → Statement},
      (v.toList.map g).length = 1 → ∃ a, v = some a := by
    intro α v g hlength
    cases v with
    | none => cases hlength
    | some a => exact ⟨a, rfl⟩
  obtain ⟨name, parent, source, lineDefined, lastLineDefined, numParams, isVararg, maxStackSize,
    code, constants, lines, locals, upvalues⟩ := f
  obtain ⟨_, rfl⟩ := hsome (h .source (by decide))
  obtain ⟨_, rfl⟩ := hsome (h .lineDefined (by decide))
  obtain ⟨_, rfl⟩ := hsome (h .lastLineDefined (by decide))
  obtain ⟨_, rfl⟩ := hsome (h .numParams (by decide))
  obtain ⟨_, rfl⟩ := hsome (h .isVararg (by decide))
  obtain ⟨_, rfl⟩ := hsome (h .maxStackSize (by decide))
  exact ⟨_, rfl⟩

end FunctionDraft

/-! ## Drafts of chunks -/

namespace Draft

variable {d : Draft} {s : Statement}

/-- A statement may stand where the header and, if it is about a function, the current function
have room for it. -/
theorem allows_iff : d.Allows s ↔ d.header.Allows s ∧
    (s.kind = .function → ∃ f, d.current = some f ∧ f.Allows s) := by
  rw [Allows, kind]
  cases hs : s.directive? with
  | none =>
    have hheader : d.header.Allows s := by
      intro dir hdir
      rw [hs] at hdir
      cases hdir
    have hfunction : ∀ f : FunctionDraft, f.Allows s ↔ f.maxStackSize.isSome := by
      intro f
      have hsize : f.entries (some .maxStackSize) ≠ [] ↔ f.maxStackSize.isSome := by
        cases hsize : f.maxStackSize <;> simp [FunctionDraft.entries, hsize]
      rw [← hsize]
      refine ⟨fun hallows => hallows.instruction hs, fun hne => ⟨?_, ?_, fun _ => hne⟩⟩
      · intro dir _ hdir
        rw [hs] at hdir
        cases hdir
      · intro hdir
        rw [hs] at hdir
        cases hdir
    simp [hheader, hfunction]
  | some dir =>
    rw [HeaderDraft.allows_iff hs]
    cases hk : dir.kind with
    | header => simp [objection?, hk, HeaderDraft.objection?_eq_none_iff hk]
    | newFunction => simp [objection?, hk]
    | function =>
      cases hcurrent : d.current with
      | none => simp [objection?, hk, hcurrent]
      | some f => simp [objection?, hk, hcurrent, FunctionDraft.objection?_eq_none_iff hs]

end Draft

end LuaAssembly
