import Mathlib
import LuaAssembly.Proofs.Chunk.Tree
import LuaAssembly.Proofs.Source.Function
import LuaAssembly.Proofs.Source.Path

/-!
# The functions of a listing make up the tree again

The functions of a tree stand in a listing one after the other, each before those nested in it.
`Outline` says that a piece of a list of functions amounts to certain trees, all nested in the same
function.  Trees are put next to each other and under a function, so the outline of a tree is found
by induction on the tree, together with the draft that its listing describes.
-/
namespace LuaAssembly

/-- The functions, numbered from `n` on, amount to the trees, all nested in `parent`. -/
structure Outline (n : Nat) (parent : Option Nat) (new : List FunctionDraft)
    (ts : List (FunctionTree Prototype)) : Prop where
  /-- A function is nested in `parent` or in one of these functions. -/
  parents : ∀ f ∈ new, f.parent = parent ∨ ∃ q, f.parent = some q ∧ n ≤ q ∧ q < n + new.length
  /-- The functions are gathered into the trees, whatever hangs from earlier functions. -/
  gathered : ∃ trees, FunctionTree.traverseAll FunctionDraft.finish trees = .ok ts ∧
    ∀ later : List Draft.Hanging, (∀ h ∈ later, ∀ q ∈ h.parent, q < n) →
      (Draft.number n new).foldr Draft.gather later = trees.map (⟨parent, ·⟩) ++ later

namespace Outline

variable {n : Nat} {parent : Option Nat} {new : List FunctionDraft}
  {ts : List (FunctionTree Prototype)}

theorem nil (n : Nat) (parent : Option Nat) : Outline n parent [] [] :=
  ⟨by simp, [], rfl, fun _ _ => rfl⟩

theorem number_append (n : Nat) (fs gs : List FunctionDraft) :
    Draft.number n (fs ++ gs) = Draft.number n fs ++ Draft.number (n + fs.length) gs := by
  induction fs generalizing n with
  | nil => rfl
  | cons f fs ih =>
    rw [List.cons_append, Draft.number, Draft.number, ih, List.length_cons, List.cons_append,
      Nat.add_assoc, Nat.add_comm 1]

theorem traverseAll_append {trees₁ trees₂ : List (FunctionTree FunctionDraft)}
    {ts₁ ts₂ : List (FunctionTree Prototype)}
    (h₁ : FunctionTree.traverseAll FunctionDraft.finish trees₁ = .ok ts₁)
    (h₂ : FunctionTree.traverseAll FunctionDraft.finish trees₂ = .ok ts₂) :
    FunctionTree.traverseAll FunctionDraft.finish (trees₁ ++ trees₂) = .ok (ts₁ ++ ts₂) := by
  induction trees₁ generalizing ts₁ with
  | nil =>
    cases h₁
    exact h₂
  | cons t trees ih =>
    obtain ⟨u, us, hu, hus, rfl⟩ := FunctionTree.traverseAll_cons_eq_ok.1 h₁
    exact FunctionTree.traverseAll_cons_eq_ok.2 ⟨u, us ++ ts₂, hu, ih hus, rfl⟩

/-- Trees next to each other. -/
theorem append {new₁ new₂ : List FunctionDraft} {ts₁ ts₂ : List (FunctionTree Prototype)}
    (hparent : ∀ q ∈ parent, q < n) (h₁ : Outline n parent new₁ ts₁)
    (h₂ : Outline (n + new₁.length) parent new₂ ts₂) :
    Outline n parent (new₁ ++ new₂) (ts₁ ++ ts₂) := by
  obtain ⟨trees₁, htrees₁, hgather₁⟩ := h₁.gathered
  obtain ⟨trees₂, htrees₂, hgather₂⟩ := h₂.gathered
  refine ⟨?_, trees₁ ++ trees₂, traverseAll_append htrees₁ htrees₂, ?_⟩
  · intro f hf
    rw [List.length_append]
    rcases List.mem_append.1 hf with hf | hf
    · rcases h₁.parents f hf with h | ⟨q, hq, hlo, hhi⟩
      · exact .inl h
      · exact .inr ⟨q, hq, hlo, by omega⟩
    · rcases h₂.parents f hf with h | ⟨q, hq, hlo, hhi⟩
      · exact .inl h
      · exact .inr ⟨q, hq, by omega, by omega⟩
  · -- The trees of the second part hang where those declared later hang.
    intro later hlater
    have hlater₂ : ∀ h ∈ later, ∀ q ∈ h.parent, q < n + new₁.length :=
      fun h hh q hq => (hlater h hh q hq).trans_le (Nat.le_add_right _ _)
    rw [number_append, List.foldr_append, hgather₂ later hlater₂, hgather₁, List.map_append,
      List.append_assoc]
    intro h hh q hq
    rcases List.mem_append.1 hh with hh | hh
    · obtain ⟨t, -, rfl⟩ := List.mem_map.1 hh
      exact hparent q hq
    · exact hlater h hh q hq

/-- A function over the trees that are nested in it. -/
theorem node (path : Bytes) (parent : Option Nat) (p : Prototype)
    (h : Outline (n + 1) (some n) new ts) :
    Outline n parent (.ofPrototype path parent p :: new) [.node p ts] := by
  obtain ⟨trees, htrees, hgather⟩ := h.gathered
  refine ⟨?_, [.node (.ofPrototype path parent p) trees], ?_, ?_⟩
  · intro f hf
    rw [List.length_cons]
    rcases List.mem_cons.1 hf with rfl | hf
    · exact .inl rfl
    · right
      rcases h.parents f hf with h | ⟨q, hq, hlo, hhi⟩
      · exact ⟨n, h, le_rfl, by omega⟩
      · exact ⟨q, hq, by omega, by omega⟩
  · rw [FunctionTree.traverseAll, FunctionTree.traverse, FunctionDraft.finish_ofPrototype, htrees]
    rfl
  · intro later hlater
    have hlater' : ∀ h ∈ later, ∀ q ∈ h.parent, q < n + 1 :=
      fun h hh q hq => (hlater h hh q hq).trans (Nat.lt_succ_self n)
    have hrest : ∀ h ∈ later, ¬ h.parent = some n :=
      fun h hh hq => (hlater h hh n hq).ne rfl
    -- The function takes the trees that wait for it and leaves the others.
    have hpartition : (trees.map (Draft.Hanging.mk (some n)) ++ later).partition
        (fun t => t.parent = some n) = (trees.map (Draft.Hanging.mk (some n)), later) := by
      rw [List.partition_eq_filter_filter, List.filter_append, List.filter_append]
      congr 1
      · rw [List.filter_eq_self.2 (by simp), List.filter_eq_nil_iff.2 (by simpa using hrest),
          List.append_nil]
      · rw [List.filter_eq_nil_iff.2 (by simp), List.filter_eq_self.2 (by simpa using hrest),
          List.nil_append]
    rw [Draft.number, List.foldr_cons, hgather later hlater', Draft.gather, hpartition]
    simp only [List.map_map, Function.comp_def, List.map_id']
    rfl

end Outline

/-! ## Listings of trees -/

/-- The listing of a function, set off by an empty line. -/
def functionText (entry : Bytes × Prototype) : Bytes :=
  utf8 "\n" ++ Listing.function entry.1 entry.2

/-- What is needed of a draft to go on with the function at a path: where the function is nested,
and that its path will lead to it. -/
structure Placed (d : Draft) (path : Bytes) (parent : Option Nat) : Prop where
  word : IsWord path
  nested : Draft.parentOf d.functions path = .ok parent
  /-- The path leads to the function once it is declared. -/
  located : ∀ f : FunctionDraft, f.name = path → f.parent = parent →
    Located (d.functions ++ [f]) path d.functions.length
  parents : ∀ f ∈ d.functions, ∀ q ∈ f.parent, q < d.functions.length
  parent_lt : ∀ q ∈ parent, q < d.functions.length

/-- The listing of the tree describes the tree, wherever it is placed, if all integers in it are in
range. -/
def Describable (t : FunctionTree Prototype) : Prop :=
  ∀ d path parent, Placed d path parent → ∃ entries new d', t.walk? path = some entries ∧
    DescribesIff (t.Every fun p _ => p.InRange) (entries.flatMap functionText) (.done d)
      (.done d') ∧ d'.header = d.header ∧ d'.functions = d.functions ++ new ∧
    Outline d.functions.length parent new [t.map fun p => p.listed.reread] ∧
    ∀ f ∈ new, f.parent = parent → f.name = path

/-- The trees nested in a function, from place `k` on. -/
theorem describes_nested {ts : List (FunctionTree Prototype)} (hts : ∀ t ∈ ts, Describable t)
    {d : Draft} {path : Bytes} {i k : Nat} (hword : IsWord path)
    (hlocated : Located d.functions path i) (hfresh : Fresh d.functions i k)
    (hparents : ∀ f ∈ d.functions, ∀ q ∈ f.parent, q < d.functions.length)
    (hi : i < d.functions.length) :
    ∃ entries new d', FunctionTree.walkAll? path k ts = some entries ∧
      DescribesIff (∀ t ∈ ts, t.Every fun p _ => p.InRange) (entries.flatMap functionText)
        (.done d) (.done d') ∧ d'.header = d.header ∧ d'.functions = d.functions ++ new ∧
      Outline d.functions.length (some i) new (ts.map (FunctionTree.map fun p => p.listed.reread)) := by
  induction ts generalizing d k with
  | nil =>
    exact ⟨[], [], d, rfl, (Describes.nil _).iff.congr (by simp), rfl, (List.append_nil _).symm,
      Outline.nil _ _⟩
  | cons t ts ih =>
    rw [List.forall_mem_cons] at hts
    have hchild : IsWord (FunctionTree.childPath path k) := by
      have hf : IsWord (utf8 "/f") := isWord_utf8 (by decide +kernel)
      exact (hword.append hf.bytes).append (isWord_ofNat k).bytes
    have hplaced : Placed d (FunctionTree.childPath path k) (some i) :=
      ⟨hchild, hlocated.parentOf_childPath k, fun f hname hparent =>
        hlocated.childPath hfresh hname hparent, hparents, by simpa using hi⟩
    obtain ⟨entries₁, new₁, d₁, hwalk₁, hdesc₁, hheader₁, hfunctions₁, houtline₁, hnames₁⟩ :=
      hts.1 d _ _ hplaced
    -- The first tree adds a single function at place `k`; everything else in it lies deeper.
    have hfresh₁ : Fresh d₁.functions i (k + 1) := by
      intro f hf hparent
      rw [hfunctions₁] at hf
      rcases List.mem_append.1 hf with hf | hf
      · obtain ⟨j, hj, hsegment⟩ := hfresh f hf hparent
        exact ⟨j, hj.trans (Nat.lt_succ_self k), hsegment⟩
      · refine ⟨k, Nat.lt_succ_self k, ?_⟩
        rw [FunctionDraft.lastSegment, hnames₁ f hf hparent, afterLast_childPath]
    have hlength₁ : d₁.functions.length = d.functions.length + new₁.length := by
      rw [hfunctions₁, List.length_append]
    have hparents₁ : ∀ f ∈ d₁.functions, ∀ q ∈ f.parent, q < d₁.functions.length := by
      intro f hf q hq
      rw [hlength₁]
      rw [hfunctions₁] at hf
      rcases List.mem_append.1 hf with hf | hf
      · exact (hparents f hf q hq).trans_le (Nat.le_add_right _ _)
      · rcases houtline₁.parents f hf with h | ⟨q', h, -, hlt⟩
        · cases h.symm.trans hq
          exact hi.trans_le (Nat.le_add_right _ _)
        · cases h.symm.trans hq
          exact hlt
    obtain ⟨entries₂, new₂, d₂, hwalk₂, hdesc₂, hheader₂, hfunctions₂, houtline₂⟩ :=
      ih hts.2 (hfunctions₁ ▸ hlocated.append new₁) hfresh₁ hparents₁ (by omega)
    refine ⟨entries₁ ++ entries₂, new₁ ++ new₂, d₂, ?_, ?_, hheader₂.trans hheader₁, ?_, ?_⟩
    · rw [FunctionTree.walkAll?, hwalk₁, hwalk₂]
    · rw [List.flatMap_append, List.forall_mem_cons]
      exact hdesc₁.append hdesc₂
    · rw [hfunctions₂, hfunctions₁, List.append_assoc]
    · rw [hlength₁] at houtline₂
      exact Outline.append (by simpa using hi) houtline₁ houtline₂

/-- The listing of a tree describes the tree. -/
theorem describable {t : FunctionTree Prototype}
    (ht : t.Every fun p _ => p.Encodable) : Describable t := by
  induction ht with
  | @node p nested hp _ ih =>
    intro d path parent hplaced
    obtain ⟨hword, hnested, hlocated, hparents, hparent⟩ := hplaced
    -- First the function itself is described, then the trees nested in it, from place 0 on.
    have hfunction :=
      (Describes.newline (.done d)).iff.append (DescribesIff.function hp hword hnested)
    obtain ⟨root, hroot⟩ : ∃ root, root = FunctionDraft.ofPrototype path parent p.listed.reread :=
      ⟨_, rfl⟩
    rw [← hroot] at hfunction
    obtain ⟨d₁, hd₁⟩ : ∃ d₁, d₁ = Draft.mk d.header d.functions (some root) := ⟨_, rfl⟩
    have hfunctions₁ : d₁.functions = d.functions ++ [root] := by
      rw [hd₁]
      rfl
    have hlength₁ : d₁.functions.length = d.functions.length + 1 := by
      rw [hfunctions₁, List.length_append, List.length_singleton]
    have hparents₁ : ∀ f ∈ d₁.functions, ∀ q ∈ f.parent, q < d.functions.length := by
      intro f hf q hq
      rw [hfunctions₁] at hf
      rcases List.mem_append.1 hf with hf | hf
      · exact hparents f hf q hq
      · rw [List.mem_singleton.1 hf, hroot] at hq
        exact hparent q hq
    have hfresh₁ : Fresh d₁.functions d.functions.length 0 :=
      fun f hf hq => absurd (hparents₁ f hf _ hq) (lt_irrefl _)
    obtain ⟨entries, new, d₂, hwalk, hdesc, hheader, hfunctions₂, houtline⟩ :=
      describes_nested ih hword (hfunctions₁ ▸ hlocated root (hroot ▸ rfl) (hroot ▸ rfl)) hfresh₁
        (fun f hf q hq => (hparents₁ f hf q hq).trans (by omega)) (by omega)
    rw [hlength₁] at houtline
    refine ⟨(path, p) :: entries, root :: new, d₂, ?_, ?_, ?_, ?_, ?_, ?_⟩
    · rw [FunctionTree.walk?, hwalk]
      rfl
    · rw [hd₁] at hdesc
      refine (hfunction.append hdesc).congr ?_
      rw [true_and, FunctionTree.Every.node_iff]
    · rw [hheader, hd₁]
    · rw [hfunctions₂, hfunctions₁, List.append_assoc, List.singleton_append]
    · rw [FunctionTree.map_node, hroot]
      exact houtline.node path parent p.listed.reread
    · intro f hf hf'
      rcases List.mem_cons.1 hf with rfl | hf
      · rw [hroot]
        rfl
      · -- no function nested in this one is nested in the function around it
        exfalso
        rcases houtline.parents f hf with h | ⟨q, h, hle, -⟩
        · exact (hparent _ (hf'.symm.trans h)).ne rfl
        · have := hparent q (hf'.symm.trans h)
          omega

theorem traverseAll_eq_singleton {trees : List (FunctionTree FunctionDraft)}
    {t : FunctionTree Prototype}
    (h : FunctionTree.traverseAll FunctionDraft.finish trees = .ok [t]) :
    ∃ tree, trees = [tree] ∧ tree.traverse FunctionDraft.finish = .ok t := by
  cases trees with
  | nil => cases h
  | cons tree trees =>
    obtain ⟨u, us, hu, hus, heq⟩ := FunctionTree.traverseAll_cons_eq_ok.1 h
    cases heq
    cases trees with
    | nil => exact ⟨tree, rfl, hu⟩
    | cons tree' trees =>
      obtain ⟨_, _, -, -, h⟩ := FunctionTree.traverseAll_cons_eq_ok.1 hus
      cases h

/-- The listing of the functions of a chunk describes the chunk. -/
theorem describes_main {t : FunctionTree Prototype} (ht : t.Every fun p _ => p.Encodable)
    (H : HeaderDraft) : ∃ entries d, t.walk? mainPath = some entries ∧
      DescribesIff (t.Every fun p _ => p.InRange) (entries.flatMap functionText)
        (.done ⟨H, [], none⟩) (.done d) ∧ d.header = H ∧ d.functions ≠ [] ∧
      d.tree.traverse FunctionDraft.finish = .ok (t.map fun p => p.listed.reread) := by
  have hslash : 0x2F ∉ mainPath := by decide
  have hplaced : Placed ⟨H, [], none⟩ mainPath none := by
    refine ⟨isWord_utf8 (by decide +kernel), ?_, ?_, by simp [Draft.functions], by simp⟩
    · exact if_neg (t := Except.error Cause.mainIsPath) hslash
    · intro f hname hparent
      exact ⟨⟨f, [], rfl, hname⟩, [], Bytes.split_of_not_mem hslash, by simp, rfl⟩
  obtain ⟨entries, new, d, hwalk, hdesc, hheader, hfunctions, houtline, -⟩ :=
    describable ht _ _ _ hplaced
  obtain ⟨trees, htraverse, hgather⟩ := houtline.gathered
  have hforest := hgather [] (by simp)
  obtain ⟨tree, rfl, htree⟩ : ∃ tree, trees = [tree] ∧
      tree.traverse FunctionDraft.finish = .ok (t.map fun p => p.listed.reread) :=
    traverseAll_eq_singleton htraverse
  refine ⟨entries, d, hwalk, hdesc, hheader, ?_, ?_⟩
  · rw [hfunctions]
    rintro rfl
    cases hforest
  · have hall : (Draft.number 0 d.functions).foldr Draft.gather [] = [⟨none, tree⟩] := by
      rw [hfunctions]
      exact hforest
    rw [Draft.tree, hall]
    exact htree

end LuaAssembly
