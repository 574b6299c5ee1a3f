import Mathlib
import LuaAssembly.Proofs.Document.Digest
import LuaAssembly.Proofs.Source.Instruction
import LuaAssembly.Proofs.Source.Path

/-!
# Restoring chunks from documents

A document shows its chunk in two ways at once: instructions have their words and their fields, and
functions have their places in the tree and their paths.  The main statement is that the two ways
agree and that nothing is missing: the chunk comes back from its document, the paths are those of a
walk through the tree, no two functions have the same one, and the fields of an instruction make up
its word.
-/
namespace LuaAssembly

/-! ## Walks -/

namespace FunctionTree

variable {α β : Type}

theorem walk?_node_eq_some {path : Bytes} {body : α} {nested : List (FunctionTree α)}
    {visits : List (Bytes × α)} : walk? path (.node body nested) = some visits ↔
      ∃ rest, walkAll? path 0 nested = some rest ∧ visits = (path, body) :: rest := by
  rw [walk?, Option.map_eq_some_iff]
  simp only [eq_comm]

theorem walkAll?_cons_eq_some {path : Bytes} {i : Nat} {t : FunctionTree α}
    {ts : List (FunctionTree α)} {visits : List (Bytes × α)} :
    walkAll? path i (t :: ts) = some visits ↔ ∃ first rest,
      walk? (childPath path i) t = some first ∧ walkAll? path (i + 1) ts = some rest ∧
      visits = first ++ rest := by
  rw [walkAll?]
  cases walk? (childPath path i) t with
  | none => simp
  | some first =>
    cases walkAll? path (i + 1) ts with
    | none => simp
    | some rest => simp [eq_comm]

mutual

/-- A walk comes to every function once, to each before those nested in it. -/
theorem map_snd_walk? : (t : FunctionTree α) → {path : Bytes} → {visits : List (Bytes × α)} →
    t.walk? path = some visits → visits.map Prod.snd = t.bodies
  | .absent, _, _, h => by cases h
  | .node body nested, path, visits, h => by
    obtain ⟨rest, hrest, rfl⟩ := walk?_node_eq_some.1 h
    rw [List.map_cons, map_snd_walkAll? nested hrest, bodies]

theorem map_snd_walkAll? : (ts : List (FunctionTree α)) → {path : Bytes} → {i : Nat} →
    {visits : List (Bytes × α)} → walkAll? path i ts = some visits →
    visits.map Prod.snd = bodiesAll ts
  | [], _, _, _, h => by
    cases h
    rfl
  | t :: ts, path, i, visits, h => by
    obtain ⟨first, rest, hfirst, hrest, rfl⟩ := walkAll?_cons_eq_some.1 h
    rw [List.map_append, map_snd_walk? t hfirst, map_snd_walkAll? ts hrest, bodiesAll]

end

mutual

/-- Converting a tree gives each function the path that a walk comes to it with. -/
theorem exists_walk? {f : Bytes → α → β} : (t : FunctionTree α) → {path : Bytes} →
    {u : FunctionTree β} → t.convert? f path = some u →
    ∃ visits, t.walk? path = some visits ∧ u.bodies = visits.map fun v => f v.1 v.2
  | .absent, _, _, h => by cases h
  | .node body nested, path, u, h => by
    obtain ⟨us, hus, rfl⟩ := convert?_node_eq_some.1 h
    obtain ⟨rest, hrest, hbodies⟩ := exists_walkAll? nested hus
    refine ⟨(path, body) :: rest, walk?_node_eq_some.2 ⟨rest, hrest, rfl⟩, ?_⟩
    rw [bodies, hbodies, List.map_cons]

theorem exists_walkAll? {f : Bytes → α → β} : (ts : List (FunctionTree α)) → {path : Bytes} →
    {i : Nat} → {us : List (FunctionTree β)} → convertAll? f path i ts = some us →
    ∃ visits, walkAll? path i ts = some visits ∧ bodiesAll us = visits.map fun v => f v.1 v.2
  | [], _, _, _, h => by
    cases h
    exact ⟨[], rfl, rfl⟩
  | t :: ts, path, i, us, h => by
    obtain ⟨u, us, hu, hus, rfl⟩ := convertAll?_cons_eq_some.1 h
    obtain ⟨first, hfirst, hbodies⟩ := exists_walk? t hu
    obtain ⟨rest, hrest, hbodiesAll⟩ := exists_walkAll? ts hus
    refine ⟨first ++ rest, walkAll?_cons_eq_some.2 ⟨first, rest, hfirst, hrest, rfl⟩, ?_⟩
    rw [bodiesAll, hbodies, hbodiesAll, List.map_append]

end

mutual

/-- What was made of a tree can be turned back where each function can. -/
theorem convert?_convert? {f : Bytes → α → β} {g : Bytes → β → α}
    (hg : ∀ path path' b, g path' (f path b) = b) : (t : FunctionTree α) → {path : Bytes} →
    {u : FunctionTree β} → t.convert? f path = some u → ∀ path', u.convert? g path' = some t
  | .absent, _, _, h, _ => by cases h
  | .node body nested, path, u, h, path' => by
    obtain ⟨us, hus, rfl⟩ := convert?_node_eq_some.1 h
    have hnested := convertAll?_convertAll? hg nested hus path' 0
    exact convert?_node_eq_some.2 ⟨nested, hnested, by rw [hg]⟩

theorem convertAll?_convertAll? {f : Bytes → α → β} {g : Bytes → β → α}
    (hg : ∀ path path' b, g path' (f path b) = b) : (ts : List (FunctionTree α)) →
    {path : Bytes} → {i : Nat} → {us : List (FunctionTree β)} →
    convertAll? f path i ts = some us → ∀ path' j, convertAll? g path' j us = some ts
  | [], _, _, _, h, _, _ => by
    cases h
    rfl
  | t :: ts, path, i, us, h, path', j => by
    obtain ⟨u, us, hu, hus, rfl⟩ := convertAll?_cons_eq_some.1 h
    exact convertAll?_cons_eq_some.2 ⟨t, ts, convert?_convert? hg t hu _,
      convertAll?_convertAll? hg ts hus path' (j + 1), rfl⟩

end

/-! ## Distinct paths -/

/-- The second path leads to the function at the first one, or to a function inside of it. -/
def Under (path inner : Bytes) : Prop :=
  path.split 0x2F <+: inner.split 0x2F

theorem Under.of_childPath {path inner : Bytes} {i : Nat} (h : Under (childPath path i) inner) :
    Under path inner := by
  rw [Under, split_childPath] at h
  exact (List.prefix_append _ _).trans h

theorem not_under_childPath (path : Bytes) (i : Nat) : ¬Under (childPath path i) path := by
  intro h
  have hlength := h.length_le
  rw [split_childPath, List.length_append, List.length_singleton] at hlength
  omega

/-- What is inside of a nested function tells its place. -/
theorem Under.place_unique {path inner : Bytes} {i j : Nat} (hi : Under (childPath path i) inner)
    (hj : Under (childPath path j) inner) : i = j := by
  rw [Under, split_childPath] at hi hj
  obtain ⟨more, hmore⟩ := hi
  obtain ⟨more', hmore'⟩ := hj
  have heq := hmore.trans hmore'.symm
  rw [List.append_assoc, List.append_assoc] at heq
  exact placeName_injective (List.cons.inj (List.append_cancel_left heq)).1

mutual

theorem under_of_walk? : (t : FunctionTree α) → {path : Bytes} → {visits : List (Bytes × α)} →
    t.walk? path = some visits → ∀ inner ∈ visits.map Prod.fst, Under path inner
  | .absent, _, _, h => by cases h
  | .node body nested, path, visits, h => by
    obtain ⟨rest, hrest, rfl⟩ := walk?_node_eq_some.1 h
    intro inner hinner
    rcases List.mem_cons.1 hinner with rfl | hinner
    · exact List.prefix_rfl
    · obtain ⟨j, -, hunder⟩ := under_of_walkAll? nested hrest inner hinner
      exact hunder.of_childPath

theorem under_of_walkAll? : (ts : List (FunctionTree α)) → {path : Bytes} → {i : Nat} →
    {visits : List (Bytes × α)} → walkAll? path i ts = some visits →
    ∀ inner ∈ visits.map Prod.fst, ∃ j, i ≤ j ∧ Under (childPath path j) inner
  | [], _, _, _, h => by
    cases h
    simp
  | t :: ts, path, i, visits, h => by
    obtain ⟨first, rest, hfirst, hrest, rfl⟩ := walkAll?_cons_eq_some.1 h
    intro inner hinner
    rw [List.map_append, List.mem_append] at hinner
    rcases hinner with hinner | hinner
    · exact ⟨i, le_rfl, under_of_walk? t hfirst inner hinner⟩
    · obtain ⟨j, hj, hunder⟩ := under_of_walkAll? ts hrest inner hinner
      exact ⟨j, by omega, hunder⟩

end

mutual

/-- No two functions of a tree have the same path. -/
theorem nodup_walk? : (t : FunctionTree α) → {path : Bytes} → {visits : List (Bytes × α)} →
    t.walk? path = some visits → (visits.map Prod.fst).Nodup
  | .absent, _, _, h => by cases h
  | .node body nested, path, visits, h => by
    obtain ⟨rest, hrest, rfl⟩ := walk?_node_eq_some.1 h
    refine List.nodup_cons.2 ⟨fun hmem => ?_, nodup_walkAll? nested hrest⟩
    obtain ⟨j, -, hunder⟩ := under_of_walkAll? nested hrest path hmem
    exact not_under_childPath path j hunder

theorem nodup_walkAll? : (ts : List (FunctionTree α)) → {path : Bytes} → {i : Nat} →
    {visits : List (Bytes × α)} → walkAll? path i ts = some visits →
    (visits.map Prod.fst).Nodup
  | [], _, _, _, h => by
    cases h
    exact List.nodup_nil
  | t :: ts, path, i, visits, h => by
    obtain ⟨first, rest, hfirst, hrest, rfl⟩ := walkAll?_cons_eq_some.1 h
    rw [List.map_append, List.nodup_append]
    refine ⟨nodup_walk? t hfirst, nodup_walkAll? ts hrest, fun inner hinner other hother heq => ?_⟩
    -- Functions at later places have another segment behind `path`.
    subst heq
    obtain ⟨j, hj, hunder⟩ := under_of_walkAll? ts hrest inner hother
    have hplace := (under_of_walk? t hfirst inner hinner).place_unique hunder
    omega

end

end FunctionTree

/-! ## Fields of a word -/

namespace Opcode

theorem mnemonic_injective : Function.Injective mnemonic := by
  intro op op' h
  have hop := ofMnemonic?_mnemonic op
  rw [h, ofMnemonic?_mnemonic] at hop
  exact (Option.some.inj hop).symm

theorem parenthesis_not_mem_mnemonic (op : Opcode) : 0x28 ∉ op.mnemonic := by
  cases op <;> decide +kernel

/-- Numbers are told apart by their names, also those that no operation has. -/
theorem nameOfNumber_injective : Function.Injective nameOfNumber := by
  -- Only the names that are made up for other numbers have parentheses.
  have hne : ∀ (op : Opcode) n, op.mnemonic ≠ utf8 "unknown(" ++ Numeral.ofNat n ++ utf8 ")" := by
    intro op n h
    have hmem : 0x28 ∈ utf8 "unknown(" := by decide +kernel
    refine parenthesis_not_mem_mnemonic op ?_
    rw [h]
    exact List.mem_append_left _ (List.mem_append_left _ hmem)
  intro m n h
  cases hm : ofNumber? m with
  | some op =>
    cases hn : ofNumber? n with
    | some op' =>
      simp only [nameOfNumber, hm, hn] at h
      obtain rfl := mnemonic_injective h
      rw [ofNumber?_eq_some_iff.1 hm, ofNumber?_eq_some_iff.1 hn]
    | none =>
      simp only [nameOfNumber, hm, hn] at h
      exact absurd h (hne op n)
  | none =>
    cases hn : ofNumber? n with
    | some op' =>
      simp only [nameOfNumber, hm, hn] at h
      exact absurd h.symm (hne op' m)
    | none =>
      simp only [nameOfNumber, hm, hn] at h
      exact Numeral.ofNat_injective (List.append_cancel_left (List.append_cancel_right h))

end Opcode

namespace Word

theorem opcodeNumber_eq (w : Word) : w.opcodeNumber = w.toNat % 2 ^ opcodeField.width := by
  have hdecode : w.opcodeNumber = w.toNat / 2 ^ 0 % 2 ^ 6 := rfl
  rw [hdecode, Nat.pow_zero, Nat.div_one]
  rfl

theorem slot_eq (w : Word) (s : Slot) :
    w.slot s = ((w.toNat / 2 ^ s.field.offset % 2 ^ s.field.width : Nat) : Int) := by
  cases s <;> rfl

/-- The opcode and the slots A, B and C make up the whole word. -/
theorem toNat_eq_fields (w : Word) : (w.toNat : Int) = w.opcodeNumber +
    w.slot .a * 2 ^ Slot.a.field.offset + w.slot .b * 2 ^ Slot.b.field.offset +
    w.slot .c * 2 ^ Slot.c.field.offset := by
  have hlt : w.toNat < 2 ^ 32 := w.isLt
  rw [opcodeNumber_eq, slot_eq, slot_eq, slot_eq]
  -- Each field starts where the one below it ends.
  simp only [Slot.field, opcodeField]
  omega

/-- The slot Bx is B on top of C. -/
theorem slot_bx_eq (w : Word) : w.slot .bx = w.slot .b * 512 + w.slot .c := by
  have hlt : w.toNat < 2 ^ 32 := w.isLt
  rw [slot_eq, slot_eq, slot_eq]
  simp only [Slot.field]
  omega

end Word

/-! ## Documents of chunks -/

namespace DocumentInstruction

/-- The fields that an instruction shows are those of its word. -/
structure IsConsistent (i : DocumentInstruction) : Prop where
  word_eq : ∃ n : Nat, (∀ m, Opcode.nameOfNumber m = i.op ↔ m = n) ∧
    (i.word.toNat : Int) = n + i.a * 2 ^ Slot.a.field.offset + i.b * 2 ^ Slot.b.field.offset +
      i.c * 2 ^ Slot.c.field.offset
  bx_eq : i.bx = i.b * 512 + i.c

theorem isConsistent_ofWord (w : Word) : (ofWord w).IsConsistent where
  word_eq := ⟨w.opcodeNumber, fun _ => Opcode.nameOfNumber_injective.eq_iff, w.toNat_eq_fields⟩
  bx_eq := w.slot_bx_eq

end DocumentInstruction

namespace Document

variable {c : Chunk} {d : Document}

theorem toChunk_of_ofChunk (h : ofChunk c = .ok d) : d.toChunk = .ok c := by
  obtain ⟨-, -, hmain, -, hheader⟩ := ofChunk_eq_ok h
  obtain ⟨order, hname, htag⟩ := exists_byteOrder h
  have hback : d.main.convert? (fun _ f => f.toPrototype) mainPath = some c.main :=
    FunctionTree.convert?_convert? (fun _ _ _ => DocumentFunction.toPrototype_ofPrototype ..)
      c.main hmain mainPath
  have hpresent : d.main.isAbsent = false := by
    cases hd : d.main with
    | absent =>
      rw [hd] at hback
      cases hback
    | node body nested => rfl
  rw [toChunk, hname]
  simp only [hpresent, hback, Bool.false_eq_true, if_false, hheader, htag]
  rfl

/-- Nothing of a chunk is lost in its document, and the document agrees with itself: its functions
have the paths of a walk through the chunk, all different, and the fields of each instruction make
up its word. -/
theorem ofChunk_lossless {c : Chunk} {d : Document} (h : ofChunk c = .ok d) :
    d.toChunk = .ok c ∧
      (∃ visits, c.main.walk? mainPath = some visits ∧ visits.map Prod.snd = c.main.bodies ∧
        d.main.bodies.map DocumentFunction.path = visits.map Prod.fst ∧
        (visits.map Prod.fst).Nodup) ∧
      ∀ f ∈ d.main.bodies, ∀ i ∈ f.code, i.IsConsistent := by
  obtain ⟨-, -, hmain, -, -⟩ := ofChunk_eq_ok h
  obtain ⟨visits, hwalk, hbodies⟩ := FunctionTree.exists_walk? c.main hmain
  refine ⟨toChunk_of_ofChunk h, ⟨visits, hwalk, FunctionTree.map_snd_walk? c.main hwalk, ?_,
    FunctionTree.nodup_walk? c.main hwalk⟩, fun f hf i hi => ?_⟩
  · rw [hbodies, List.map_map]
    rfl
  · rw [hbodies] at hf
    obtain ⟨v, -, rfl⟩ := List.mem_map.1 hf
    obtain ⟨w, -, rfl⟩ := List.mem_map.1 hi
    exact DocumentInstruction.isConsistent_ofWord w

/-- The second word of the main function has no operation and all bits set. -/
theorem ofChunk_lossless_exportedChunk :
    ∃ d, ofChunk (exportedChunk [.ofNumber .negativeZero]) = .ok d ∧
      d.toChunk = .ok (exportedChunk [.ofNumber .negativeZero]) ∧
      d.main.bodies.map DocumentFunction.path = [utf8 "main", utf8 "main/f0"] ∧
      (d.main.bodies.map DocumentFunction.path).Nodup ∧
      ∃ f ∈ d.main.bodies, ∃ i ∈ f.code, i.word = 0xFFFFFFFF ∧ i.op = utf8 "unknown(63)" ∧
        i.IsConsistent := by
  obtain ⟨d, hd, hpaths, f, hf, i, hi, hword, hop⟩ : ∃ d,
      ofChunk (exportedChunk [.ofNumber .negativeZero]) = .ok d ∧
      d.main.bodies.map DocumentFunction.path = [utf8 "main", utf8 "main/f0"] ∧
      ∃ f ∈ d.main.bodies, ∃ i ∈ f.code, i.word = 0xFFFFFFFF ∧ i.op = utf8 "unknown(63)" :=
    ⟨_, rfl, by decide +kernel, _, List.mem_cons_self, _,
      List.mem_cons_of_mem _ List.mem_cons_self, by decide +kernel, by decide +kernel⟩
  obtain ⟨hback, ⟨visits, -, -, hvisits, hnodup⟩, hconsistent⟩ := ofChunk_lossless hd
  exact ⟨d, hd, hback, hpaths, hvisits ▸ hnodup, f, hf, i, hi, hword, hop,
    hconsistent f hf i hi⟩

end Document

end LuaAssembly
