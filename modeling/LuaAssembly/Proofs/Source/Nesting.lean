import Mathlib
import LuaAssembly.Proofs.Source.Arena

/-!
# The tree of functions

The functions of a draft are put together from the last declaration to the first.  `Grown` says
what tree comes out: each function with its children, the functions nested in it, in the order of
their declarations.  In an arena this is one tree with every function in it, once.
-/
namespace LuaAssembly

namespace FunctionTree

variable {α β : Type}

/-- The tree of node `i`: its data is that of `i`, and nested in it are the trees of the nodes
`kids i`, in order. -/
inductive Grown (kids : Nat → List Nat) (P : Nat → α → Prop) : Nat → FunctionTree α → Prop where
  | node {i : Nat} {body : α} {nested : List (FunctionTree α)} (hbody : P i body)
    (hlength : nested.length = (kids i).length)
    (hnested : ∀ (k j : Nat) (t : FunctionTree α),
      (kids i)[k]? = some j → nested[k]? = some t → Grown kids P j t) :
    Grown kids P i (.node body nested)

namespace Grown

variable {kids : Nat → List Nat} {P : Nat → α → Prop} {Q : Nat → β → Prop} {i : Nat}
  {t : FunctionTree α} {u : FunctionTree β} {ε : Type} {f : α → Except ε β}

theorem of_forall₂ {body : α} {nested : List (FunctionTree α)} (hbody : P i body)
    (hnested : List.Forall₂ (Grown kids P) (kids i) nested) : Grown kids P i (.node body nested) := by
  refine .node hbody hnested.length_eq.symm fun k j t hj ht => ?_
  obtain ⟨hk, rfl⟩ := List.getElem?_eq_some_iff.1 hj
  obtain ⟨hk', rfl⟩ := List.getElem?_eq_some_iff.1 ht
  exact hnested.get hk hk'

theorem imp {P' : Nat → α → Prop} (h : Grown kids P i t) (hP : ∀ i a, P i a → P' i a) :
    Grown kids P' i t := by
  induction h with
  | node hbody hlength _ ih => exact .node (hP _ _ hbody) hlength ih

/-- The same tree with the data changed. -/
theorem traverse (hf : ∀ i a b, P i a → f a = .ok b → Q i b) (h : Grown kids P i t)
    (hu : t.traverse f = .ok u) : Grown kids Q i u := by
  induction h generalizing u with
  | @node i body nested hbody hlength _ ih =>
    obtain ⟨b, us, hb, hus, rfl⟩ := traverse_node_eq_ok.1 hu
    rw [traverseAll_eq_ok_iff] at hus
    refine .node (hf i body b hbody hb) (hus.length_eq ▸ hlength) fun k j v hj hv => ?_
    obtain ⟨hk, rfl⟩ := List.getElem?_eq_some_iff.1 hv
    have hk' : k < nested.length := by rw [hus.length_eq]; exact hk
    exact ih k j nested[k] hj (List.getElem?_eq_getElem hk') (hus.get hk' hk)

/-- Two trees with the same children, whose data are changed into each other. -/
theorem traverse_eq (hf : ∀ i a b, P i a → Q i b → f a = .ok b) (h : Grown kids P i t)
    (hu : Grown kids Q i u) : t.traverse f = .ok u := by
  induction h generalizing u with
  | @node i body nested hbody hlength _ ih =>
    obtain ⟨hbody', hlength', hnested'⟩ := hu
    refine traverse_node_eq_ok.2 ⟨_, _, hf _ _ _ hbody hbody', ?_, rfl⟩
    rw [traverseAll_eq_ok_iff, List.forall₂_iff_get]
    refine ⟨hlength.trans hlength'.symm, fun k hk hk' => ?_⟩
    have hj : k < (kids i).length := by omega
    exact ih k _ _ (List.getElem?_eq_getElem hj) (List.getElem?_eq_getElem hk)
      (hnested' k _ _ (List.getElem?_eq_getElem hj) (List.getElem?_eq_getElem hk'))

end Grown

end FunctionTree

/-! ## Children -/

namespace Draft

/-- The number of the function that function `j` is nested in. -/
def parent? (fs : List FunctionDraft) (j : Nat) : Option Nat :=
  fs[j]?.bind (·.parent)

/-- The functions nested in function `i`, in the order of their declarations. -/
def children (fs : List FunctionDraft) (i : Nat) : List Nat :=
  (List.range fs.length).filter fun j => parent? fs j = some i

variable {fs : List FunctionDraft}

theorem lt_length_of_parent? {i j : Nat} (h : parent? fs j = some i) : j < fs.length := by
  by_contra hge
  rw [parent?, List.getElem?_eq_none (by omega)] at h
  cases h

theorem mem_children_iff {i j : Nat} : j ∈ children fs i ↔ parent? fs j = some i := by
  rw [children, List.mem_filter, List.mem_range, decide_eq_true_eq]
  exact and_iff_right_of_imp lt_length_of_parent?

theorem pairwise_children (i : Nat) : (children fs i).Pairwise (· < ·) :=
  List.pairwise_lt_range.filter _

theorem count_children {i j : Nat} (h : parent? fs j = some i) : (children fs i).count j = 1 :=
  List.count_eq_one_of_mem ((pairwise_children i).imp ne_of_lt) (mem_children_iff.2 h)

/-- A new function becomes the last child of the function it is nested in. -/
theorem children_concat (f : FunctionDraft) (i : Nat) :
    children (fs ++ [f]) i = children fs i ++ if f.parent = some i then [fs.length] else [] := by
  have hbefore : ∀ j ∈ List.range fs.length, parent? (fs ++ [f]) j = parent? fs j := by
    intro j hj
    rw [parent?, List.getElem?_append_left (List.mem_range.1 hj), parent?]
  have hlast : parent? (fs ++ [f]) fs.length = f.parent := by
    rw [parent?, List.getElem?_concat_length]
    rfl
  rw [children, List.length_append, List.length_singleton, List.range_succ, List.filter_append,
    children]
  congr 1
  · exact List.filter_congr fun j hj => by rw [hbefore j hj]
  · rw [List.filter_singleton, hlast]
    by_cases hparent : f.parent = some i <;> simp [hparent]

end Draft

theorem Arena.parent?_lt {fs : List FunctionDraft} (h : Arena fs) {i j : Nat}
    (hj : Draft.parent? fs j = some i) : i < j := by
  obtain ⟨f, hf, hparent⟩ := Option.bind_eq_some_iff.1 hj
  cases j with
  | zero =>
    rw [(h.main f hf).1] at hparent
    cases hparent
  | succ j =>
    obtain ⟨path, segment, i', hi, hnested⟩ := h.nested (j + 1) f (by omega) hf
    rw [hnested.parent] at hparent
    cases hparent
    exact hi

theorem Arena.children_of_ge {fs : List FunctionDraft} (h : Arena fs) {i : Nat}
    (hi : fs.length ≤ i) : Draft.children fs i = [] := by
  rw [List.eq_nil_iff_forall_not_mem]
  intro j hj
  have hparent := Draft.mem_children_iff.1 hj
  have := h.parent?_lt hparent
  have := Draft.lt_length_of_parent? hparent
  omega

/-! ## Gathering -/

namespace Draft

open FunctionTree

variable {fs : List FunctionDraft}

/-- The functions from number `k` on that are nested in no function from `k` on. -/
def roots (fs : List FunctionDraft) (k : Nat) : List Nat :=
  (List.range' k (fs.length - k)).filter fun j => (parent? fs j).all (· < k)

theorem mem_roots_iff {j k : Nat} :
    j ∈ roots fs k ↔ k ≤ j ∧ j < fs.length ∧ ∀ i, parent? fs j = some i → i < k := by
  rw [roots, List.mem_filter, List.mem_range'_1, Option.all_eq_true]
  simp only [decide_eq_true_eq]
  constructor
  · rintro ⟨⟨hk, hj⟩, hall⟩
    exact ⟨hk, by omega, hall⟩
  · rintro ⟨hk, hj, hall⟩
    exact ⟨⟨hk, by omega⟩, hall⟩

theorem roots_of_ge {k : Nat} (h : fs.length ≤ k) : roots fs k = [] := by
  rw [roots, Nat.sub_eq_zero_of_le h]
  rfl

/-- The first function is a root, and takes the roots that are its children. -/
theorem roots_eq_cons (h : Arena fs) {k : Nat} (hk : k < fs.length) :
    roots fs k = k :: (roots fs (k + 1)).filter fun j => ¬parent? fs j = some k := by
  have hlength : fs.length - k = (fs.length - (k + 1)) + 1 := by omega
  rw [roots, hlength, List.range'_succ, List.filter_cons_of_pos, roots, List.filter_filter]
  · congr 1
    refine List.filter_congr fun j hj => ?_
    rw [Bool.eq_iff_iff]
    simp only [Option.all_eq_true, Bool.and_eq_true, decide_eq_true_eq]
    constructor
    · intro hall
      refine ⟨fun hparent => ?_, fun i hi => Nat.lt_succ_of_lt (hall i hi)⟩
      exact absurd (hall k hparent) (lt_irrefl k)
    · rintro ⟨hne, hall⟩ i hi
      have hle := hall i hi
      have : i ≠ k := fun heq => hne (heq ▸ hi)
      omega
  · rw [Option.all_eq_true]
    intro i hi
    exact decide_eq_true (h.parent?_lt hi)

/-- The children of a function are roots among the functions after it. -/
theorem children_eq_filter_roots (h : Arena fs) {k : Nat} (hk : k < fs.length) :
    children fs k = (roots fs (k + 1)).filter fun j => parent? fs j = some k := by
  have hrange : List.range fs.length =
      List.range (k + 1) ++ List.range' (k + 1) (fs.length - (k + 1)) := by
    have hsum : fs.length = k + 1 + (fs.length - (k + 1)) := by omega
    have happend : List.range' 0 (k + 1) ++ List.range' (0 + (k + 1)) (fs.length - (k + 1)) = _ :=
      List.range'_append_1
    rw [← hsum, Nat.zero_add] at happend
    rw [List.range_eq_range', List.range_eq_range', happend]
  have hbefore : (List.range (k + 1)).filter (fun j => parent? fs j = some k) = [] := by
    rw [List.filter_eq_nil_iff]
    intro j hj hparent
    have := h.parent?_lt (of_decide_eq_true hparent)
    have := List.mem_range.1 hj
    omega
  rw [children, hrange, List.filter_append, hbefore, List.nil_append, roots, List.filter_filter]
  refine List.filter_congr fun j _ => ?_
  rw [Bool.eq_iff_iff]
  simp only [Option.all_eq_true, Bool.and_eq_true, decide_eq_true_eq]
  constructor
  · intro hparent
    refine ⟨hparent, fun i hi => ?_⟩
    rw [hparent] at hi
    cases hi
    omega
  · exact fun hboth => hboth.1

/-- The tree of function `j`, waiting for the function it is nested in. -/
def Hangs (fs : List FunctionDraft) (j : Nat) (t : Hanging) : Prop :=
  t.parent = parent? fs j ∧ Grown (children fs) (fun i f => fs[i]? = some f) j t.tree

/-- One function more: the trees of its children become part of its own. -/
theorem forall₂_gather (h : Arena fs) {k : Nat} {f : FunctionDraft} (hf : fs[k]? = some f)
    {ts : List Hanging} (hts : List.Forall₂ (Hangs fs) (roots fs (k + 1)) ts) :
    List.Forall₂ (Hangs fs) (roots fs k) (gather (k, f) ts) := by
  obtain ⟨hk, -⟩ := List.getElem?_eq_some_iff.1 hf
  have hnested : List.Forall₂ (Hangs fs) (children fs k)
      (ts.filter fun t => t.parent = some k) := by
    rw [children_eq_filter_roots h hk]
    refine List.rel_filter (fun j t hjt => ?_) hts
    simp only [decide_eq_true_eq, hjt.1]
  have hrest : List.Forall₂ (Hangs fs)
      ((roots fs (k + 1)).filter fun j => ¬parent? fs j = some k)
      (ts.filter fun t => ¬t.parent = some k) := by
    refine List.rel_filter (fun j t hjt => ?_) hts
    simp only [decide_eq_true_eq, hjt.1]
  rw [roots_eq_cons h hk, gather, List.partition_eq_filter_filter]
  refine .cons ⟨?_, .of_forall₂ hf ?_⟩ ?_
  · rw [parent?, hf]
    rfl
  · rw [List.forall₂_map_right_iff]
    exact hnested.imp fun j t hjt => hjt.2
  · simpa [Function.comp_def] using hrest

/-- The trees of all functions from number `k` on are those of the roots. -/
theorem forall₂_gathered (h : Arena fs) (gs : List FunctionDraft) : ∀ k, fs.drop k = gs →
    List.Forall₂ (Hangs fs) (roots fs k) ((number k gs).foldr gather []) := by
  induction gs with
  | nil =>
    intro k hk
    rw [List.drop_eq_nil_iff] at hk
    rw [roots_of_ge hk]
    exact .nil
  | cons g gs ih =>
    intro k hk
    have hget : fs[k]? = some g := by
      rw [← List.head?_drop, hk]
      rfl
    have hrest : fs.drop (k + 1) = gs := by
      rw [← List.tail_drop, hk]
      rfl
    rw [number, List.foldr_cons]
    exact forall₂_gather h hget (ih (k + 1) hrest)

/-- Gathering keeps every function. -/
theorem perm_gathered (gs : List FunctionDraft) (k : Nat) :
    (((number k gs).foldr gather []).flatMap fun t => t.tree.bodies).Perm gs := by
  induction gs generalizing k with
  | nil => exact .nil
  | cons g gs ih =>
    rw [number, List.foldr_cons, gather, List.partition_eq_filter_filter, List.flatMap_cons,
      bodies, bodiesAll_eq_flatMap, List.flatMap_map, List.cons_append]
    refine .cons g (.trans ?_ (ih (k + 1)))
    rw [← List.flatMap_append]
    exact (List.filter_append_perm _ _).flatMap_right _

/-- Once there is a function, the functions of an arena make one tree: that of the main function,
with the children of each function nested in it. -/
theorem tree_spec {d : Draft} (h : Arena d.functions) (hne : d.functions ≠ []) :
    Grown (children d.functions) (fun i f => d.functions[i]? = some f) 0 d.tree ∧
      d.tree.bodies.Perm d.functions := by
  have hlength : 0 < d.functions.length := List.length_pos_iff.2 hne
  have hroots : roots d.functions 0 = [0] := by
    rw [roots_eq_cons h hlength, List.cons_eq_cons, List.filter_eq_nil_iff]
    refine ⟨rfl, fun j hj => ?_⟩
    -- Only the main function is nested in none.
    obtain ⟨hpos, hlt, hroot⟩ := mem_roots_iff.1 hj
    obtain ⟨path, segment, i, hi, hnested⟩ :=
      h.nested j d.functions[j] hpos (List.getElem?_eq_getElem hlt)
    have hparent : parent? d.functions j = some i := by
      rw [parent?, List.getElem?_eq_getElem hlt]
      exact hnested.parent
    obtain rfl : i = 0 := by
      have := hroot i hparent
      omega
    simp [hparent]
  have hgathered := forall₂_gathered h d.functions 0 List.drop_zero
  have hperm := perm_gathered d.functions 0
  rw [hroots, List.forall₂_cons_left_iff] at hgathered
  obtain ⟨t, ts, ht, hts, heq⟩ := hgathered
  rw [List.forall₂_nil_left_iff] at hts
  subst hts
  rw [heq, List.flatMap_singleton] at hperm
  rw [tree, heq]
  exact ⟨ht.2, hperm⟩

end Draft

end LuaAssembly
