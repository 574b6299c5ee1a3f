import Mathlib
import LuaAssembly.Chunk.Basic

/-!
# Properties of function trees

Statements about chunks speak of every function of a tree, at any depth, and of how deep functions
are nested.  `Every P` says that no place of the tree is without a function and that each function
satisfies `P`; besides its data, `P` is told how many functions are nested in it directly.
-/
namespace LuaAssembly.FunctionTree

variable {α β : Type}

/-! ## Equality -/

mutual

/-- Whether two trees are the same. -/
def decEq [DecidableEq α] : (t u : FunctionTree α) → Decidable (t = u)
  | .absent, .absent => isTrue rfl
  | .absent, .node _ _ => isFalse nofun
  | .node _ _, .absent => isFalse nofun
  | .node b ts, .node c us =>
    have := decEqAll ts us
    decidable_of_iff (b = c ∧ ts = us) (by rw [node.injEq])

/-- Whether trees in order are the same. -/
def decEqAll [DecidableEq α] : (ts us : List (FunctionTree α)) → Decidable (ts = us)
  | [], [] => isTrue rfl
  | [], _ :: _ => isFalse nofun
  | _ :: _, [] => isFalse nofun
  | t :: ts, u :: us =>
    have := decEq t u
    have := decEqAll ts us
    decidable_of_iff (t = u ∧ ts = us) (by rw [List.cons.injEq])

end

instance [DecidableEq α] : DecidableEq (FunctionTree α) :=
  decEq

/-! ## Changing every function -/

mutual

/-- Changes every function of the tree. -/
def map (f : α → β) : FunctionTree α → FunctionTree β
  | .absent => .absent
  | .node body nested => .node (f body) (mapAll f nested)

/-- Changes every function of several trees. -/
def mapAll (f : α → β) : List (FunctionTree α) → List (FunctionTree β)
  | [] => []
  | t :: ts => map f t :: mapAll f ts

end

theorem mapAll_eq_map (f : α → β) (ts : List (FunctionTree α)) : mapAll f ts = ts.map (map f) := by
  induction ts with
  | nil => rfl
  | cons t ts ih => rw [mapAll, ih, List.map_cons]

@[simp] theorem map_absent (f : α → β) : map f .absent = .absent := by
  rw [map]

@[simp] theorem map_node (f : α → β) (body : α) (nested : List (FunctionTree α)) :
    map f (.node body nested) = .node (f body) (nested.map (map f)) := by
  rw [map, mapAll_eq_map]

mutual

theorem map_map {γ : Type} (g : β → γ) (f : α → β) :
    (t : FunctionTree α) → (t.map f).map g = t.map (g ∘ f)
  | .absent => rfl
  | .node _ nested => by rw [map, map, map, mapAll_mapAll g f nested, Function.comp_apply]

theorem mapAll_mapAll {γ : Type} (g : β → γ) (f : α → β) :
    (ts : List (FunctionTree α)) → mapAll g (mapAll f ts) = mapAll (g ∘ f) ts
  | [] => rfl
  | t :: ts => by rw [mapAll, mapAll, mapAll, map_map g f t, mapAll_mapAll g f ts]

end

/-! ## Changes that can fail -/

theorem traverse_node_eq_ok {ε : Type} {f : α → Except ε β} {body : α}
    {nested : List (FunctionTree α)} {u : FunctionTree β} :
    traverse f (.node body nested) = .ok u ↔
      ∃ b us, f body = .ok b ∧ traverseAll f nested = .ok us ∧ u = .node b us := by
  rw [traverse]
  cases hb : f body with
  | error e => exact ⟨fun h => (by cases h), fun ⟨_, _, h, _⟩ => (by cases h)⟩
  | ok b =>
    cases hn : traverseAll f nested with
    | error e => exact ⟨fun h => (by cases h), fun ⟨_, _, _, h, _⟩ => (by cases h)⟩
    | ok us =>
      constructor
      · rintro ⟨⟩
        exact ⟨b, us, rfl, rfl, rfl⟩
      · rintro ⟨_, _, ⟨⟩, ⟨⟩, rfl⟩
        rfl

theorem traverseAll_cons_eq_ok {ε : Type} {f : α → Except ε β} {t : FunctionTree α}
    {ts : List (FunctionTree α)} {us : List (FunctionTree β)} :
    traverseAll f (t :: ts) = .ok us ↔
      ∃ u us', traverse f t = .ok u ∧ traverseAll f ts = .ok us' ∧ us = u :: us' := by
  rw [traverseAll]
  cases ht : traverse f t with
  | error e => exact ⟨fun h => (by cases h), fun ⟨_, _, h, _⟩ => (by cases h)⟩
  | ok u =>
    cases hts : traverseAll f ts with
    | error e => exact ⟨fun h => (by cases h), fun ⟨_, _, _, h, _⟩ => (by cases h)⟩
    | ok us' =>
      constructor
      · rintro ⟨⟩
        exact ⟨u, us', rfl, rfl, rfl⟩
      · rintro ⟨_, _, ⟨⟩, ⟨⟩, rfl⟩
        rfl

theorem exists_of_mem_traverseAll {ε : Type} {f : α → Except ε β} {ts : List (FunctionTree α)}
    {us : List (FunctionTree β)} (h : traverseAll f ts = .ok us) {u : FunctionTree β}
    (hu : u ∈ us) : ∃ t ∈ ts, traverse f t = .ok u := by
  induction ts generalizing us with
  | nil =>
    rw [traverseAll] at h
    cases h
    cases hu
  | cons t ts ih =>
    obtain ⟨u', us', hu', hus', rfl⟩ := traverseAll_cons_eq_ok.1 h
    rcases List.mem_cons.1 hu with rfl | hu
    · exact ⟨t, List.mem_cons_self, hu'⟩
    · obtain ⟨t', ht', hu⟩ := ih hus' hu
      exact ⟨t', List.mem_cons_of_mem _ ht', hu⟩

theorem traverseAll_eq_ok_iff {ε : Type} {f : α → Except ε β} {ts : List (FunctionTree α)}
    {us : List (FunctionTree β)} :
    traverseAll f ts = .ok us ↔ List.Forall₂ (fun t u => traverse f t = .ok u) ts us := by
  induction ts generalizing us with
  | nil =>
    rw [traverseAll, List.forall₂_nil_left_iff, Except.ok.injEq, eq_comm]
  | cons t ts ih =>
    rw [traverseAll_cons_eq_ok, List.forall₂_cons_left_iff]
    constructor
    · rintro ⟨u, us, hu, hus, rfl⟩
      exact ⟨u, us, hu, ih.1 hus, rfl⟩
    · rintro ⟨u, us, hu, hus, rfl⟩
      exact ⟨u, us, hu, ih.2 hus, rfl⟩

mutual

/-- The data of all functions, each before those nested in it. -/
def bodies : FunctionTree α → List α
  | .absent => []
  | .node body nested => body :: bodiesAll nested

/-- The data of all functions of several trees. -/
def bodiesAll : List (FunctionTree α) → List α
  | [] => []
  | t :: ts => bodies t ++ bodiesAll ts

end

theorem bodiesAll_eq_flatMap (ts : List (FunctionTree α)) : bodiesAll ts = ts.flatMap bodies := by
  induction ts with
  | nil => rfl
  | cons t ts ih => rw [bodiesAll, ih, List.flatMap_cons]

mutual

theorem forall₂_bodies {ε : Type} {f : α → Except ε β} : (t : FunctionTree α) →
    {u : FunctionTree β} → t.traverse f = .ok u →
    List.Forall₂ (fun a b => f a = .ok b) t.bodies u.bodies
  | .absent, u, h => by
    cases h
    exact .nil
  | .node body nested, u, h => by
    obtain ⟨b, us, hb, hus, rfl⟩ := traverse_node_eq_ok.1 h
    rw [bodies, bodies]
    exact .cons hb (forall₂_bodiesAll nested hus)

theorem forall₂_bodiesAll {ε : Type} {f : α → Except ε β} : (ts : List (FunctionTree α)) →
    {us : List (FunctionTree β)} → traverseAll f ts = .ok us →
    List.Forall₂ (fun a b => f a = .ok b) (bodiesAll ts) (bodiesAll us)
  | [], us, h => by
    cases h
    exact .nil
  | t :: ts, us, h => by
    obtain ⟨u, us, hu, hus, rfl⟩ := traverseAll_cons_eq_ok.1 h
    rw [bodiesAll, bodiesAll]
    exact List.rel_append (forall₂_bodies t hu) (forall₂_bodiesAll ts hus)

end

/-- A change of a tree succeeds on every function. -/
theorem exists_of_mem_bodies {ε : Type} {f : α → Except ε β} {t : FunctionTree α}
    {u : FunctionTree β} (h : t.traverse f = .ok u) {a : α} (ha : a ∈ t.bodies) :
    ∃ b, f a = .ok b := by
  obtain ⟨i, hi, rfl⟩ := List.mem_iff_getElem.1 ha
  have hbodies := forall₂_bodies t h
  exact ⟨_, hbodies.get hi (hbodies.length_eq ▸ hi)⟩

mutual

/-- A change of a tree fails as it does on some function. -/
theorem exists_of_traverse_eq_error {ε : Type} {f : α → Except ε β} {e : ε} :
    (t : FunctionTree α) → t.traverse f = .error e → ∃ a ∈ t.bodies, f a = .error e
  | .absent, h => by cases h
  | .node body nested, h => by
    rw [traverse] at h
    cases hbody : f body with
    | error e' =>
      rw [hbody] at h
      cases h
      exact ⟨body, by simp [bodies], hbody⟩
    | ok b =>
      cases hnested : traverseAll f nested with
      | error e' =>
        rw [hbody, hnested] at h
        cases h
        obtain ⟨a, ha, herror⟩ := exists_of_traverseAll_eq_error nested hnested
        exact ⟨a, by simp [bodies, ha], herror⟩
      | ok us =>
        rw [hbody, hnested] at h
        cases h

theorem exists_of_traverseAll_eq_error {ε : Type} {f : α → Except ε β} {e : ε} :
    (ts : List (FunctionTree α)) → traverseAll f ts = .error e →
    ∃ a ∈ bodiesAll ts, f a = .error e
  | [], h => by cases h
  | t :: ts, h => by
    rw [traverseAll] at h
    cases ht : traverse f t with
    | error e' =>
      rw [ht] at h
      cases h
      obtain ⟨a, ha, herror⟩ := exists_of_traverse_eq_error t ht
      exact ⟨a, by simp [bodiesAll, ha], herror⟩
    | ok u =>
      cases hts : traverseAll f ts with
      | error e' =>
        rw [ht, hts] at h
        cases h
        obtain ⟨a, ha, herror⟩ := exists_of_traverseAll_eq_error ts hts
        exact ⟨a, by simp [bodiesAll, ha], herror⟩
      | ok us =>
        rw [ht, hts] at h
        cases h

end

/-! ## Every function -/

/-- Every place of the tree has a function, and every function satisfies `P` together with the
number of functions nested in it directly. -/
inductive Every (P : α → Nat → Prop) : FunctionTree α → Prop
  | node {body : α} {nested : List (FunctionTree α)} (here : P body nested.length)
      (below : ∀ t ∈ nested, Every P t) : Every P (.node body nested)

namespace Every

variable {P Q : α → Nat → Prop}

theorem body {b : α} {nested : List (FunctionTree α)} (h : Every P (.node b nested)) :
    P b nested.length := by
  cases h with
  | node here _ => exact here

theorem nested {b : α} {ts : List (FunctionTree α)} (h : Every P (.node b ts)) :
    ∀ t ∈ ts, Every P t := by
  cases h with
  | node _ below => exact below

theorem isAbsent {t : FunctionTree α} (h : Every P t) : t.isAbsent = false := by
  cases h with
  | node _ _ => rfl

theorem node_iff {b : α} {ts : List (FunctionTree α)} :
    Every P (.node b ts) ↔ P b ts.length ∧ ∀ t ∈ ts, Every P t :=
  ⟨fun h => ⟨h.body, h.nested⟩, fun h => .node h.1 h.2⟩

mutual

/-- Whether every function of the tree satisfies `P`. -/
def decide (P : α → Nat → Prop) [∀ b n, Decidable (P b n)] :
    (t : FunctionTree α) → Decidable (Every P t)
  | .absent => isFalse nofun
  | .node b ts =>
    have := decideAll P ts
    decidable_of_iff (P b ts.length ∧ ∀ t ∈ ts, Every P t) node_iff.symm

/-- Whether every function of several trees satisfies `P`. -/
def decideAll (P : α → Nat → Prop) [∀ b n, Decidable (P b n)] :
    (ts : List (FunctionTree α)) → Decidable (∀ t ∈ ts, Every P t)
  | [] => isTrue (List.forall_mem_nil _)
  | t :: ts =>
    have := decide P t
    have := decideAll P ts
    decidable_of_iff (Every P t ∧ ∀ t ∈ ts, Every P t) List.forall_mem_cons.symm

end

instance [∀ b n, Decidable (P b n)] (t : FunctionTree α) : Decidable (Every P t) :=
  decide P t

theorem imp {t : FunctionTree α} (h : Every P t) (hPQ : ∀ b n, P b n → Q b n) : Every Q t := by
  induction h with
  | node here _ ih => exact .node (hPQ _ _ here) ih

theorem and {t : FunctionTree α} (hP : Every P t) (hQ : Every Q t) :
    Every (fun b n => P b n ∧ Q b n) t := by
  induction hP with
  | node here _ ih => exact .node ⟨here, hQ.body⟩ fun t ht => ih t ht (hQ.nested t ht)

/-- A change of every function that `P` allows leads to functions that `Q` allows. -/
theorem map {R : β → Nat → Prop} {f : α → β} {t : FunctionTree α} (h : Every P t)
    (hf : ∀ b n, P b n → R (f b) n) : Every R (t.map f) := by
  induction h with
  | node here _ ih =>
    rw [map_node]
    refine .node (by simpa using hf _ _ here) fun t ht => ?_
    obtain ⟨u, hu, rfl⟩ := List.mem_map.1 ht
    exact ih u hu

/-- What a change that can fail makes of the functions holds of every function of the result. -/
theorem traverse {ε : Type} {P : α → Prop} {R : β → Prop} {f : α → Except ε β}
    {t : FunctionTree α} {u : FunctionTree β} (h : Every (fun b _ => P b) t)
    (hf : ∀ b b', P b → f b = .ok b' → R b') (hu : t.traverse f = .ok u) :
    Every (fun b _ => R b) u := by
  induction h generalizing u with
  | node here _ ih =>
    obtain ⟨b', us, hb', hus, rfl⟩ := traverse_node_eq_ok.1 hu
    refine .node (hf _ _ here hb') fun u hmem => ?_
    obtain ⟨t, ht, hu⟩ := exists_of_mem_traverseAll hus hmem
    exact ih t ht hu

/-- What holds of the changed functions held of the functions up to the change. -/
theorem of_map {R : β → Nat → Prop} {f : α → β} {t : FunctionTree α} (h : Every P t)
    (hR : Every R (t.map f)) : Every (fun b n => R (f b) n) t := by
  induction h with
  | node _ _ ih =>
    rw [map_node] at hR
    refine .node (by simpa using hR.body) fun t ht => ih t ht ?_
    exact hR.nested _ (List.mem_map_of_mem ht)

/-- A change that is none on the functions of the tree is none on the tree. -/
theorem map_eq_self {f : α → α} {t : FunctionTree α} (h : Every P t)
    (hf : ∀ b n, P b n → f b = b) : t.map f = t := by
  induction h with
  | node here _ ih => rw [map_node, hf _ _ here, List.map_congr_left ih, List.map_id']

theorem map_eq_self_iff {f : α → α} {t : FunctionTree α} (h : Every P t) :
    t.map f = t ↔ Every (fun b _ => f b = b) t := by
  refine ⟨fun heq => ?_, fun hf => hf.map_eq_self fun _ _ hb => hb⟩
  induction h with
  | node _ _ ih =>
    rw [map_node] at heq
    obtain ⟨hbody, hnested⟩ := FunctionTree.node.inj heq
    refine .node hbody fun t ht => ih t ht ?_
    exact List.map_inj_left.1 (hnested.trans (List.map_id _).symm) t ht

theorem map_congr {f g : α → β} {t : FunctionTree α} (h : Every P t)
    (hfg : ∀ b n, P b n → f b = g b) : t.map f = t.map g := by
  induction h with
  | node here _ ih => rw [map_node, map_node, hfg _ _ here, List.map_congr_left ih]

end Every

/-! ## Nesting -/

mutual

/-- How many levels of functions there are below the root. -/
def levels : FunctionTree α → Nat
  | .absent => 0
  | .node _ nested => levelsAll nested

/-- How many levels of functions the trees make together. -/
def levelsAll : List (FunctionTree α) → Nat
  | [] => 0
  | t :: ts => max (levels t + 1) (levelsAll ts)

end

theorem levelsAll_le {ts : List (FunctionTree α)} {n : Nat} :
    levelsAll ts ≤ n ↔ ∀ t ∈ ts, t.levels < n := by
  induction ts with
  | nil => simp [levelsAll]
  | cons t ts ih => simp [levelsAll, ih]

theorem levels_node_le {body : α} {nested : List (FunctionTree α)} {n : Nat} :
    (node body nested).levels ≤ n ↔ ∀ t ∈ nested, t.levels < n := by
  rw [levels, levelsAll_le]

mutual

theorem levels_map (f : α → β) : (t : FunctionTree α) → (t.map f).levels = t.levels
  | .absent => by rw [map_absent, levels, levels]
  | .node _ nested => by rw [map_node, levels, levels, levelsAll_map f nested]

theorem levelsAll_map (f : α → β) :
    (ts : List (FunctionTree α)) → levelsAll (ts.map (map f)) = levelsAll ts
  | [] => by rw [List.map_nil, levelsAll, levelsAll]
  | t :: ts => by rw [List.map_cons, levelsAll, levelsAll, levels_map f t, levelsAll_map f ts]

end

end LuaAssembly.FunctionTree
