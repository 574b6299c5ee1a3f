import Mathlib
import LuaAssembly.Proofs.Bytecode.Word

/-!
# Independent fields

Values are put into a word by or-ing them in, each at the place of its field, and nothing is cut off
on the way.  For fields that lie inside the word and share no bit this is safe, whatever the fields
are.  The main statement is that the order does not matter, that every field then holds its value
and that no other bit is set; and that every word with no other bit set comes about in this way.
-/
namespace LuaAssembly

namespace Field

/-- The bits that belong to the field. -/
def bits (f : Field) : Finset Nat :=
  Finset.Ico f.offset (f.offset + f.width)

@[simp] theorem mem_bits {f : Field} {i : Nat} : i ∈ f.bits ↔ f.Covers i :=
  Finset.mem_Ico

/-- The fields lie inside the word, and no two of them share a bit. -/
structure Separate (fields : List Field) : Prop where
  inside : ∀ f ∈ fields, f.offset + f.width ≤ 32
  disjoint : fields.Pairwise fun f g => Disjoint f.bits g.bits

/-- No bit outside the fields is set. -/
def Spans (fields : List Field) (w : Word) : Prop :=
  ∀ i, (∀ f ∈ fields, i ∉ f.bits) → w.getLsbD i = false

/-- The word that comes about when values are or-ed into their fields, one after the other. -/
def merge (stored : List (Field × Int)) : Word :=
  stored.foldl (fun w e => w ||| e.1.encode e.2) 0

variable {fields : List Field} {stored order : List (Field × Int)} {f : Field} {v : Int} {i : Nat}

/-! ## Bits of merged words -/

/-- A bit is set when one of the values sets it. -/
theorem getLsbD_merge (stored : List (Field × Int)) (i : Nat) :
    (merge stored).getLsbD i = stored.any fun e => (e.1.encode e.2).getLsbD i := by
  rw [merge, Word.getLsbD_foldl_or (fun e : Field × Int => e.1.encode e.2)]
  simp

/-- The order in which values are or-ed in does not matter. -/
theorem merge_perm (h : order.Perm stored) : merge order = merge stored := by
  refine BitVec.eq_of_getLsbD_eq fun i _ => ?_
  rw [getLsbD_merge, getLsbD_merge, h.any_eq]

theorem mem_bits_of_getLsbD_encode (hinside : f.offset + f.width ≤ 32) (hcheck : f.check v = true)
    (hbit : (f.encode v).getLsbD i) : i ∈ f.bits := by
  rw [check_iff] at hcheck
  exact mem_bits.2 (covers_of_getLsbD_encode (by omega) hcheck.1 hcheck.2 hbit)

namespace Separate

/-- A bit belongs to one field of the list at most. -/
theorem eq_of_mem_bits (h : Separate (stored.map Prod.fst)) {e e' : Field × Int} (he : e ∈ stored)
    (he' : e' ∈ stored) (hi : i ∈ e.1.bits) (hi' : i ∈ e'.1.bits) : e = e' := by
  by_contra hne
  have : Std.Symm fun e e' : Field × Int => Disjoint e.1.bits e'.1.bits :=
    ⟨fun _ _ hee' => hee'.symm⟩
  have hdisjoint := (List.pairwise_map.1 h.disjoint).forall he he' hne
  exact Finset.disjoint_left.1 hdisjoint hi hi'

theorem inside_of_mem (h : Separate (stored.map Prod.fst)) {e : Field × Int} (he : e ∈ stored) :
    e.1.offset + e.1.width ≤ 32 :=
  h.inside e.1 (List.mem_map_of_mem he)

/-- Within a field, the merged word has the bits of the value of that field. -/
theorem getLsbD_merge_of_mem (h : Separate (stored.map Prod.fst))
    (hcheck : ∀ e ∈ stored, e.1.check e.2 = true) {e : Field × Int} (he : e ∈ stored)
    (hi : i ∈ e.1.bits) : (merge stored).getLsbD i = (e.1.encode e.2).getLsbD i := by
  rw [Bool.eq_iff_iff, getLsbD_merge, List.any_eq_true]
  constructor
  · rintro ⟨e', he', hbit⟩
    have hi' := mem_bits_of_getLsbD_encode (h.inside_of_mem he') (hcheck e' he') hbit
    rwa [h.eq_of_mem_bits he he' hi hi']
  · exact fun hbit => ⟨e, he, hbit⟩

/-- Every field of the merged word holds its value. -/
theorem decode_merge (h : Separate (stored.map Prod.fst))
    (hcheck : ∀ e ∈ stored, e.1.check e.2 = true) {e : Field × Int} (he : e ∈ stored) :
    e.1.decode (merge stored) = e.2 := by
  obtain ⟨hnonneg, hmax⟩ := (check_iff _ _).1 (hcheck e he)
  refine decode_of_getLsbD (h.inside_of_mem he) hnonneg hmax fun i hi => ?_
  exact h.getLsbD_merge_of_mem hcheck he (mem_bits.2 hi)

/-- The merged word has no bit outside the fields. -/
theorem spans_merge (h : Separate (stored.map Prod.fst))
    (hcheck : ∀ e ∈ stored, e.1.check e.2 = true) : Spans (stored.map Prod.fst) (merge stored) := by
  intro i hout
  rw [Bool.eq_false_iff, getLsbD_merge, Ne, List.any_eq_true]
  rintro ⟨e, he, hbit⟩
  refine hout e.1 (List.mem_map_of_mem he) ?_
  exact mem_bits_of_getLsbD_encode (h.inside_of_mem he) (hcheck e he) hbit

end Separate

/-- A word without bits outside the fields is put together from what its fields hold.  Here fields
may share bits. -/
theorem merge_decode (hinside : ∀ f ∈ fields, f.offset + f.width ≤ 32) {w : Word}
    (hw : Spans fields w) : merge (fields.map fun f => (f, f.decode w)) = w := by
  refine BitVec.eq_of_getLsbD_eq fun i _ => ?_
  have hfield : ∀ f ∈ fields, (f.encode (f.decode w)).getLsbD i =
      (decide (f.Covers i) && w.getLsbD i) := by
    intro f hf
    have := hinside f hf
    exact getLsbD_encode_decode (by omega) w i
  rw [Bool.eq_iff_iff, getLsbD_merge, List.any_map, List.any_eq_true]
  constructor
  · rintro ⟨f, hf, hbit⟩
    rw [Function.comp_apply, hfield f hf, Bool.and_eq_true] at hbit
    exact hbit.2
  · intro hbit
    -- Some field has the bit, since bits outside the fields are not set.
    have hcovered : ∃ f ∈ fields, i ∈ f.bits := by
      by_contra hnone
      push Not at hnone
      rw [hw i hnone] at hbit
      cases hbit
    obtain ⟨f, hf, hi⟩ := hcovered
    refine ⟨f, hf, ?_⟩
    rw [Function.comp_apply, hfield f hf, decide_eq_true (mem_bits.1 hi), hbit]
    rfl

/-- Fields that share no bit are independent.  Values that fit their fields give one word, in
whatever order they are or-ed in; each field of it holds its value, and no bit outside the fields is
set.  Every word without such bits is put together again, in any order, from what its fields
hold. -/
theorem merge_independent (h : Separate fields) :
    (∀ stored : List (Field × Int), stored.map Prod.fst = fields →
      (∀ e ∈ stored, e.1.check e.2 = true) →
      ∃ w, (∀ order : List (Field × Int), order.Perm stored → merge order = w) ∧
        (∀ e ∈ stored, e.1.decode w = e.2) ∧ Spans fields w) ∧
    ∀ w, Spans fields w → ∀ order : List Field, order.Perm fields →
      merge (order.map fun f => (f, f.decode w)) = w := by
  constructor
  · rintro stored rfl hcheck
    exact ⟨merge stored, fun _ => merge_perm, fun _ => h.decode_merge hcheck,
      h.spans_merge hcheck⟩
  · intro w hw order horder
    rw [merge_perm (horder.map _), merge_decode h.inside hw]

end Field

/-- The fields that make up a whole instruction word. -/
def Word.wholeFields : List Field :=
  [Word.opcodeField, Slot.a.field, Slot.b.field, Slot.c.field]

theorem merge_independent_wholeFields :
    (∃ w : Word, Field.merge [(Slot.c.field, 511), (Word.opcodeField, 37), (Slot.b.field, 256),
        (Slot.a.field, 3)] = w ∧ Slot.b.field.decode w = 256 ∧ Slot.c.field.decode w = 511) ∧
      ∀ w : Word, Field.merge (Word.wholeFields.reverse.map fun f => (f, f.decode w)) = w := by
  have hseparate : Field.Separate Word.wholeFields := ⟨by decide, by decide⟩
  obtain ⟨hstored, hword⟩ := Field.merge_independent hseparate
  constructor
  · obtain ⟨w, horder, hdecode, -⟩ := hstored [(Word.opcodeField, 37), (Slot.a.field, 3),
      (Slot.b.field, 256), (Slot.c.field, 511)] rfl (by decide)
    exact ⟨w, horder _ (by decide), hdecode (Slot.b.field, 256) (by simp),
      hdecode (Slot.c.field, 511) (by simp)⟩
  · intro w
    refine hword w (fun i hout => ?_) _ (List.reverse_perm _)
    -- The four fields leave no bit of the word over.
    refine BitVec.getLsbD_of_ge w i ?_
    by_contra hlt
    have hcovered : ∀ i < 32, ∃ f ∈ Word.wholeFields, i ∈ f.bits := by decide
    obtain ⟨f, hf, hi⟩ := hcovered i (by omega)
    exact hout f hf hi

end LuaAssembly
