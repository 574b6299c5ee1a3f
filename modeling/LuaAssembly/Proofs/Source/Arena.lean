import Mathlib
import LuaAssembly.Proofs.Source.Path
import LuaAssembly.Proofs.Source.Steps

/-!
# Functions and their names

Functions stand in the order of their declarations, and several may have the same name.  `Arena`
says how names and places go together: the name of a nested function is that of the function it is
nested in, a slash and one more segment, and of the functions with that name it is nested in the
first.  A path is followed segment by segment, but in an arena this finds the first function whose
full name is the path.  Every statement keeps the arena.
-/
namespace LuaAssembly

/-! ## Segments of a name -/

namespace Bytes

variable {sep : UInt8} {bs x y : Bytes} {xs ys : List Bytes}

theorem split_eq_singleton (h : split sep bs = [y]) : y = bs ∧ sep ∉ bs := by
  induction bs generalizing y with
  | nil => simpa [split, eq_comm] using h
  | cons b bs ih =>
    rw [split] at h
    split_ifs at h with hb
    · simp [split_ne_nil] at h
    · cases hbs : split sep bs with
      | nil => exact absurd hbs (split_ne_nil sep bs)
      | cons piece pieces =>
        simp only [hbs, List.cons.injEq] at h
        obtain ⟨rfl, rfl⟩ := h
        obtain ⟨rfl, hmem⟩ := ih hbs
        exact ⟨rfl, by simpa [hmem] using Ne.symm hb⟩

/-- The first piece, when there are more. -/
theorem split_eq_cons_cons (h : split sep bs = x :: y :: ys) :
    ∃ more, bs = x ++ sep :: more ∧ split sep more = y :: ys := by
  induction bs generalizing x with
  | nil => simp [split] at h
  | cons b bs ih =>
    rw [split] at h
    split_ifs at h with hb
    · obtain ⟨rfl, hbs⟩ := List.cons.inj h
      exact ⟨bs, by rw [hb]; rfl, hbs⟩
    · cases hbs : split sep bs with
      | nil => exact absurd hbs (split_ne_nil sep bs)
      | cons piece pieces =>
        simp only [hbs, List.cons.injEq] at h
        obtain ⟨rfl, rfl⟩ := h
        obtain ⟨more, rfl, hmore⟩ := ih hbs
        exact ⟨more, rfl, hmore⟩

/-- The last piece, when there are more. -/
theorem split_eq_concat (h : split sep bs = xs ++ [y]) (hxs : xs ≠ []) :
    ∃ front, bs = front ++ sep :: y ∧ sep ∉ y ∧ split sep front = xs := by
  induction bs generalizing xs with
  | nil =>
    cases xs with
    | nil => exact absurd rfl hxs
    | cons x xs => simp [split] at h
  | cons b bs ih =>
    obtain ⟨x, xs, rfl⟩ := List.exists_cons_of_ne_nil hxs
    rw [List.cons_append, split] at h
    split_ifs at h with hb
    · obtain ⟨rfl, hbs⟩ := List.cons.inj h
      cases xs with
      | nil =>
        obtain ⟨rfl, hmem⟩ := split_eq_singleton hbs
        exact ⟨[], by rw [hb]; rfl, hmem, rfl⟩
      | cons x xs =>
        obtain ⟨front, rfl, hmem, hfront⟩ := ih hbs (by simp)
        exact ⟨b :: front, rfl, hmem, by rw [split, if_pos hb, hfront]⟩
    · cases hbs : split sep bs with
      | nil => exact absurd hbs (split_ne_nil sep bs)
      | cons piece pieces =>
        simp only [hbs, List.cons.injEq] at h
        obtain ⟨rfl, rfl⟩ := h
        rw [← List.cons_append] at hbs
        obtain ⟨front, rfl, hmem, hfront⟩ := ih hbs (by simp)
        exact ⟨b :: front, rfl, hmem, by rw [split, if_neg hb, hfront]⟩

/-- A name is cut at its last separator in one way only. -/
theorem append_cons_inj {p p' s s' : Bytes} (hs : sep ∉ s) (hs' : sep ∉ s')
    (h : p ++ sep :: s = p' ++ sep :: s') : p = p' ∧ s = s' := by
  have hlast : s = s' := by
    rw [← afterLast_append_cons p hs, h, afterLast_append_cons p' hs']
  subst hlast
  exact ⟨List.append_cancel_right h, rfl⟩

end Bytes

/-! ## Arenas -/

/-- The number of the first function with the given full name. -/
def firstNamed? (names : List Bytes) (path : Bytes) : Option Nat :=
  names.findIdx? (· = path)

theorem firstNamed?_append {names : List Bytes} {path : Bytes} {i : Nat}
    (h : firstNamed? names path = some i) (more : List Bytes) :
    firstNamed? (names ++ more) path = some i := by
  rw [firstNamed?, List.findIdx?_append, ← firstNamed?, h]
  rfl

theorem firstNamed?_eq_none_iff {names : List Bytes} {path : Bytes} :
    firstNamed? names path = none ↔ path ∉ names := by
  rw [firstNamed?, List.findIdx?_eq_none_iff]
  simp only [decide_eq_false_iff_not]
  exact ⟨fun h hmem => h _ hmem rfl, fun h x hx heq => h (heq ▸ hx)⟩

theorem getElem?_of_firstNamed? {names : List Bytes} {path : Bytes} {i : Nat}
    (h : firstNamed? names path = some i) : names[i]? = some path := by
  obtain ⟨hi, hname, -⟩ := List.findIdx?_eq_some_iff_getElem.1 h
  rw [List.getElem?_eq_getElem hi, of_decide_eq_true hname]

namespace FunctionDraft

/-- What a declaration settles: the name and the function it is nested in. -/
def place (f : FunctionDraft) : Bytes × Option Nat :=
  (f.name, f.parent)

theorem place_apply (f : FunctionDraft) (s : Statement) : (f.apply s).place = f.place := by
  cases s <;> rfl

/-- The function is nested in function `i`, the first whose full name is `path`. -/
structure NestedIn (names : List Bytes) (f : FunctionDraft) (path segment : Bytes) (i : Nat) :
    Prop where
  parent : f.parent = some i
  name : f.name = path ++ 0x2F :: segment
  segment_ne : segment ≠ []
  slash_not_mem : 0x2F ∉ segment
  first : firstNamed? names path = some i

end FunctionDraft

/-- The full name is a path that starts at the main function and has no empty segment. -/
def IsUnder (main name : Bytes) : Prop :=
  ∃ more : Bytes, name = main ++ 0x2F :: more ∧ [] ∉ more.split 0x2F

/-- Functions in the order of their declarations, with names that tell their places. -/
structure Arena (fs : List FunctionDraft) : Prop where
  main : ∀ f, fs[0]? = some f → f.parent = none ∧ 0x2F ∉ f.name
  nested : ∀ j f, 0 < j → fs[j]? = some f →
    ∃ path segment i, i < j ∧ f.NestedIn (fs.map (·.name)) path segment i

/-- A path that leads somewhere does so up to its last segment. -/
theorem Draft.follow_front {fs : List FunctionDraft} {i j : Nat} {segments : List Bytes}
    {segment : Bytes} (h : follow fs i (segments ++ [segment]) = .ok j) :
    ∃ k, follow fs i segments = .ok k := by
  induction segments generalizing i with
  | nil => exact ⟨i, rfl⟩
  | cons s segments ih =>
    rw [List.cons_append, follow] at h
    rw [follow]
    split at h
    · exact ih h
    · cases h

namespace Arena

variable {fs gs : List FunctionDraft} {main : FunctionDraft} {path segment name : Bytes} {i : Nat}

theorem nil : Arena [] := by
  constructor <;> simp

/-- Only names and places count. -/
theorem congr (h : Arena fs) (hplace : gs.map FunctionDraft.place = fs.map FunctionDraft.place) :
    Arena gs := by
  have hnames : gs.map (·.name) = fs.map (·.name) := by
    have := congrArg (List.map Prod.fst) hplace
    simpa [List.map_map, Function.comp_def, FunctionDraft.place] using this
  have hget : ∀ {j : Nat} {g : FunctionDraft}, gs[j]? = some g →
      ∃ f : FunctionDraft, fs[j]? = some f ∧ f.place = g.place := by
    intro j g hg
    have := congrArg (fun ps => ps[j]?) hplace
    simp only [List.getElem?_map, hg, Option.map_some] at this
    simpa using this.symm
  constructor
  · intro g hg
    obtain ⟨f, hf, heq⟩ := hget hg
    obtain ⟨hname, hparent⟩ := Prod.mk.inj heq
    rw [← hname, ← hparent]
    exact h.main f hf
  · intro j g hj hg
    obtain ⟨f, hf, heq⟩ := hget hg
    obtain ⟨hname, hparent⟩ := Prod.mk.inj heq
    obtain ⟨path, segment, i, hi, hnested⟩ := h.nested j f hj hf
    rw [hnames]
    exact ⟨path, segment, i, hi, hparent ▸ hnested.parent, hname ▸ hnested.name,
      hnested.segment_ne, hnested.slash_not_mem, hnested.first⟩

/-- A function is the child that a segment asks for exactly when its full name says so. -/
theorem name_eq_iff (h : Arena fs) (hfirst : firstNamed? (fs.map (·.name)) path = some i)
    (hsegment : 0x2F ∉ segment) {f : FunctionDraft} (hf : f ∈ fs) :
    f.name = path ++ 0x2F :: segment ↔ f.parent = some i ∧ f.lastSegment = segment := by
  obtain ⟨j, hj⟩ := List.mem_iff_getElem?.1 hf
  cases j with
  | zero =>
    -- The main function has a plain name and is nested in none.
    obtain ⟨hparent, hslash⟩ := h.main f hj
    constructor
    · intro hname
      rw [hname] at hslash
      simp at hslash
    · rintro ⟨hsome, -⟩
      rw [hparent] at hsome
      cases hsome
  | succ j =>
    obtain ⟨path', segment', i', -, hnested⟩ := h.nested (j + 1) f (by omega) hj
    have hlast : f.lastSegment = segment' := by
      rw [FunctionDraft.lastSegment, hnested.name,
        Bytes.afterLast_append_cons path' hnested.slash_not_mem]
    rw [hnested.parent, hlast, hnested.name]
    constructor
    · intro hname
      obtain ⟨rfl, rfl⟩ := Bytes.append_cons_inj hnested.slash_not_mem hsegment hname
      exact ⟨hnested.first.symm.trans hfirst, rfl⟩
    · rintro ⟨hi, rfl⟩
      obtain rfl := Option.some.inj hi
      have hpath := (getElem?_of_firstNamed? hnested.first).symm.trans
        (getElem?_of_firstNamed? hfirst)
      rw [Option.some.inj hpath]

/-- The function above a nested one is declared. -/
theorem path_mem (h : Arena fs) (hsegment : 0x2F ∉ segment)
    (hmem : path ++ 0x2F :: segment ∈ fs.map (·.name)) : path ∈ fs.map (·.name) := by
  obtain ⟨f, hf, hname⟩ := List.mem_map.1 hmem
  obtain ⟨j, hj⟩ := List.mem_iff_getElem?.1 hf
  cases j with
  | zero =>
    have hslash := (h.main f hj).2
    rw [hname] at hslash
    simp at hslash
  | succ j =>
    obtain ⟨path', segment', i, -, hnested⟩ := h.nested (j + 1) f (by omega) hj
    rw [hnested.name] at hname
    obtain ⟨rfl, -⟩ := Bytes.append_cons_inj hnested.slash_not_mem hsegment hname
    exact List.mem_of_getElem? (getElem?_of_firstNamed? hnested.first)

/-- A child is found by its full name. -/
theorem child?_eq (h : Arena fs) (hfirst : firstNamed? (fs.map (·.name)) path = some i)
    (hsegment : 0x2F ∉ segment) :
    Draft.child? fs i segment = firstNamed? (fs.map (·.name)) (path ++ 0x2F :: segment) := by
  have hiff : ∀ f ∈ fs, (decide (f.parent = some i) && decide (f.lastSegment = segment)) =
      decide (f.name = path ++ 0x2F :: segment) := by
    intro f hf
    rw [Bool.eq_iff_iff, Bool.and_eq_true, decide_eq_true_eq, decide_eq_true_eq,
      decide_eq_true_eq, h.name_eq_iff hfirst hsegment hf]
  rw [Draft.child?, firstNamed?, List.findIdx?_map]
  clear h hfirst
  -- The two conditions agree on every function, so they hold first at the same one.
  induction fs with
  | nil => rfl
  | cons f fs ih =>
    rw [List.forall_mem_cons] at hiff
    rw [List.findIdx?_cons, List.findIdx?_cons, ih hiff.2, hiff.1]
    rfl

/-- Following the segments of a path finds the first function whose full name is the path. -/
theorem follow_eq_ok_iff (h : Arena fs) (hmain : fs[0]? = some main) {segments : List Bytes}
    (hpath : path.split 0x2F = main.name :: segments) :
    Draft.follow fs 0 segments = .ok i ↔ firstNamed? (fs.map (·.name)) path = some i := by
  induction segments using List.reverseRecOn generalizing path i with
  | nil =>
    obtain ⟨rfl, -⟩ := Bytes.split_eq_singleton hpath
    have hzero : firstNamed? (fs.map (·.name)) main.name = some 0 := by
      obtain ⟨rest, rfl⟩ := List.head?_eq_some_iff.1 (List.head?_eq_getElem?.trans hmain)
      simp [firstNamed?, List.findIdx?_cons]
    rw [hzero, Draft.follow]
    simp
  | append_singleton segments segment ih =>
    rw [← List.cons_append] at hpath
    obtain ⟨front, rfl, hsegment, hfront⟩ := Bytes.split_eq_concat hpath (by simp)
    cases hfirst : firstNamed? (fs.map (·.name)) front with
    | none =>
      -- Neither the front of the path nor the whole is a name.
      have hnone : firstNamed? (fs.map (·.name)) (front ++ 0x2F :: segment) = none := by
        rw [firstNamed?_eq_none_iff] at hfirst ⊢
        exact fun hmem => hfirst (h.path_mem hsegment hmem)
      rw [hnone]
      constructor
      · intro hfollow
        obtain ⟨k, hk⟩ := Draft.follow_front hfollow
        rw [ih hfront, hfirst] at hk
        cases hk
      · rintro ⟨⟩
    | some k =>
      rw [Draft.follow_snoc ((ih hfront).2 hfirst), Draft.follow, h.child?_eq hfirst hsegment]
      cases firstNamed? (fs.map (·.name)) (front ++ 0x2F :: segment) with
      | none => simp
      | some j => simp [Draft.follow]

/-! ## Declarations -/

theorem split_of_isUnder (hmain : 0x2F ∉ main.name) (hsegment : 0x2F ∉ segment)
    (hunder : IsUnder main.name (path ++ 0x2F :: segment)) :
    ∃ segments, segments ≠ [] ∧ [] ∉ segments ∧
      (path ++ 0x2F :: segment).split 0x2F = main.name :: segments ∧
      path.split 0x2F = main.name :: segments.dropLast := by
  obtain ⟨more, hname, hempty⟩ := hunder
  have hmore : (path ++ 0x2F :: segment).split 0x2F = main.name :: more.split 0x2F := by
    rw [hname, Bytes.split_append_cons, Bytes.split_of_not_mem hmain]
    rfl
  have hne := Bytes.split_ne_nil 0x2F more
  refine ⟨more.split 0x2F, hne, hempty, hmore, ?_⟩
  rw [Bytes.split_append_cons, Bytes.split_of_not_mem hsegment] at hmore
  have hfront := congrArg List.dropLast hmore
  rwa [List.dropLast_concat, List.dropLast_cons_of_ne_nil hne] at hfront

/-- Where a function with a well-formed name goes: into the first function with the name before
its last slash.  If there is none, it cannot be declared. -/
theorem parentOf_of_isUnder (h : Arena fs) (hmain : fs[0]? = some main)
    (hsegment : 0x2F ∉ segment) (hunder : IsUnder main.name (path ++ 0x2F :: segment)) :
    (∀ i, firstNamed? (fs.map (·.name)) path = some i →
        Draft.parentOf fs (path ++ 0x2F :: segment) = .ok (some i)) ∧
      (firstNamed? (fs.map (·.name)) path = none → ∃ missing,
        Draft.parentOf fs (path ++ 0x2F :: segment) =
          .error (.noOuterFunction missing (path ++ 0x2F :: segment))) := by
  obtain ⟨segments, hne, hempty, hsplit, hpath⟩ :=
    split_of_isUnder (h.main main hmain).2 hsegment hunder
  obtain ⟨s, ss, rfl⟩ := List.exists_cons_of_ne_nil hne
  have hparentOf : Draft.parentOf fs (path ++ 0x2F :: segment) =
      ((Draft.follow fs 0 (s :: ss).dropLast).map some).mapError fun missing =>
        .noOuterFunction missing (path ++ 0x2F :: segment) := by
    obtain ⟨rest, rfl⟩ := List.head?_eq_some_iff.1 (List.head?_eq_getElem?.trans hmain)
    rw [Draft.parentOf, hsplit]
    simp only [ne_eq, not_true_eq_false, if_false, if_neg hempty]
    cases Draft.follow (main :: rest) 0 (s :: ss).dropLast <;> rfl
  have hfollow := fun i => h.follow_eq_ok_iff (i := i) hmain hpath
  constructor
  · intro i hfirst
    rw [hparentOf, (hfollow i).2 hfirst]
    rfl
  · intro hnone
    rw [hparentOf]
    cases hresult : Draft.follow fs 0 (s :: ss).dropLast with
    | error missing => exact ⟨missing, rfl⟩
    | ok i =>
      rw [hfollow, hnone] at hresult
      cases hresult

/-- The declarations that succeed. -/
theorem parentOf_eq_ok (h : Arena fs) {parent : Option Nat}
    (hparent : Draft.parentOf fs name = .ok parent) :
    (fs = [] ∧ 0x2F ∉ name ∧ parent = none) ∨
      ∃ main path segment i, fs[0]? = some main ∧ IsUnder main.name name ∧
        name = path ++ 0x2F :: segment ∧ segment ≠ [] ∧ 0x2F ∉ segment ∧
        firstNamed? (fs.map (·.name)) path = some i ∧ parent = some i := by
  cases fs with
  | nil =>
    rw [Draft.parentOf] at hparent
    split_ifs at hparent with hslash
    exact .inl ⟨rfl, hslash, (Except.ok.inj hparent).symm⟩
  | cons main rest =>
    right
    have hread := hparent
    rw [Draft.parentOf] at hread
    split at hread
    · rename_i root segment more hsplit
      dsimp only at hread
      split_ifs at hread with hroot hempty
      rw [not_not] at hroot
      subst hroot
      -- The name is cut after the main function, and again before its last segment.
      have hunder : IsUnder main.name name := by
        obtain ⟨tail, rfl, htail⟩ := Bytes.split_eq_cons_cons hsplit
        exact ⟨tail, rfl, by rw [htail]; exact hempty⟩
      obtain ⟨front, last, hlast⟩ : ∃ front last, segment :: more = front ++ [last] :=
        ⟨_, _, (List.dropLast_concat_getLast (List.cons_ne_nil segment more)).symm⟩
      rw [hlast, ← List.cons_append] at hsplit
      obtain ⟨path, rfl, hslash, -⟩ := Bytes.split_eq_concat hsplit (by simp)
      have hne : last ≠ [] := by
        rintro rfl
        exact hempty (by rw [hlast]; simp)
      obtain ⟨hfound, hmissing⟩ := h.parentOf_of_isUnder rfl hslash hunder
      cases hfirst : firstNamed? ((main :: rest).map (·.name)) path with
      | none =>
        obtain ⟨missing, herror⟩ := hmissing hfirst
        rw [herror] at hparent
        cases hparent
      | some i =>
        rw [hfound i hfirst] at hparent
        exact ⟨main, path, last, i, rfl, hunder, rfl, hne, hslash, hfirst,
          (Except.ok.inj hparent).symm⟩
    · cases hread

theorem declare (h : Arena fs) {parent : Option Nat}
    (hparent : Draft.parentOf fs name = .ok parent) :
    Arena (fs ++ [.declared name parent]) := by
  have hcases := h.parentOf_eq_ok hparent
  constructor
  · intro f hf
    rcases hcases with ⟨rfl, hslash, rfl⟩ | ⟨main, _, _, _, hmain, -⟩
    · obtain rfl : FunctionDraft.declared name none = f := by simpa using hf
      exact ⟨rfl, hslash⟩
    · obtain ⟨rest, rfl⟩ := List.head?_eq_some_iff.1 (List.head?_eq_getElem?.trans hmain)
      exact h.main f hf
  · intro j f hj hf
    rw [List.map_append]
    rcases lt_trichotomy j fs.length with hlt | rfl | hgt
    · rw [List.getElem?_append_left hlt] at hf
      obtain ⟨path, segment, i, hi, hnested⟩ := h.nested j f hj hf
      exact ⟨path, segment, i, hi,
        { hnested with first := firstNamed?_append hnested.first _ }⟩
    · rw [List.getElem?_concat_length] at hf
      cases hf
      rcases hcases with ⟨rfl, -⟩ | ⟨_, path, segment, i, -, -, hname, hne, hslash, hfirst, hi⟩
      · simp at hj
      · refine ⟨path, segment, i, ?_, hi, hname, hne, hslash, firstNamed?_append hfirst _⟩
        obtain ⟨hlt, -⟩ := List.getElem?_eq_some_iff.1 (getElem?_of_firstNamed? hfirst)
        simpa using hlt
    · rw [List.getElem?_eq_none (by simp; omega)] at hf
      cases hf

end Arena

namespace Draft

/-- The draft after a statement that is no declaration. -/
def update (d : Draft) (s : Statement) : Draft :=
  { d with header := d.header.apply s, current := d.current.map (·.apply s) }

/-- What a statement can do: declare a function, or say more about what is there. -/
theorem apply_cases {d d' : Draft} {s : Statement} (h : d.apply s = .ok d') :
    (∃ name pos parent, s = .function name pos ∧ parentOf d.functions name = .ok parent ∧
        d' = { d with earlier := d.functions, current := some (.declared name parent) }) ∨
      s.directive? ≠ some .function ∧ d' = d.update s := by
  cases s with
  | function name pos =>
    left
    cases hparent : parentOf d.functions name with
    | error cause =>
      simp only [apply, declare, hparent, Except.map] at h
      cases h
    | ok parent =>
      simp only [apply, declare, hparent, Except.map] at h
      cases h
      exact ⟨name, pos, parent, rfl, hparent, rfl⟩
  | _ =>
    right
    cases h
    exact ⟨by simp [Statement.directive?], rfl⟩

theorem places_update (d : Draft) (s : Statement) :
    (d.update s).functions.map FunctionDraft.place = d.functions.map FunctionDraft.place := by
  cases hcurrent : d.current with
  | none => simp [functions, update, hcurrent]
  | some f => simp [functions, update, hcurrent, FunctionDraft.place_apply]

theorem functions_declare (d : Draft) (f : FunctionDraft) :
    functions { d with earlier := d.functions, current := some f } = d.functions ++ [f] := rfl

/-- The functions of every draft that statements can reach are an arena. -/
theorem Reaches.arena {ss : List Statement} {d : Draft} (h : Draft.empty.Reaches ss d) :
    Arena d.functions := by
  refine h.invariant (P := fun d => Arena d.functions) ?_ Arena.nil
  intro d d₁ s harena _ happly
  rcases apply_cases happly with ⟨name, pos, parent, rfl, hparent, rfl⟩ | ⟨-, rfl⟩
  · rw [functions_declare]
    exact harena.declare hparent
  · exact harena.congr (d.places_update s)

end Draft

end LuaAssembly
