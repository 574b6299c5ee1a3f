import Mathlib
import LuaAssembly.Proofs.Chunk.RoundTrip

/-!
# Where functions stand in a binary chunk

Writing stops only at a place without a function, at a constant with an unknown tag, or when there
is no byte order.  Without these, the bytes of a function are the bytes of its parts in order.  So
the bytes of a nested function stand inside those of the function around it, and the byte that
counts the upvalues has a place that depends on the name of the source alone.
-/
namespace LuaAssembly

/-! ## Sequences that are written to the end -/

namespace Emission

variable {α : Type}

theorem append_stop_iff (x y : Emission) :
    (x.append y).stop = none ↔ x.stop = none ∧ y.stop = none := by
  cases hx : x.stop with
  | none => rw [append_stop hx, eq_self_iff_true, true_and]
  | some u => simp [append, hx]

/-- A sequence is written to the end exactly when all of its parts are. -/
theorem concat_stop_iff (es : List Emission) :
    (concat es).stop = none ↔ ∀ e ∈ es, e.stop = none := by
  induction es with
  | nil => simp [ofBytes]
  | cons e es ih => rw [concat_cons, append_stop_iff, ih, List.forall_mem_cons]

theorem concat_bytes {es : List Emission} (h : (concat es).stop = none) :
    (concat es).bytes = es.flatMap Emission.bytes := by
  induction es with
  | nil => rfl
  | cons e es ih =>
    rw [concat_cons] at h ⊢
    obtain ⟨he, hes⟩ := (append_stop_iff _ _).1 h
    rw [append_bytes he, ih hes, List.flatMap_cons]

/-- The bytes of the last parts are the last bytes. -/
theorem concat_drop_suffix {es : List Emission} (h : (concat es).stop = none) (n : Nat) :
    (concat (es.drop n)).bytes <:+ (concat es).bytes := by
  have hdrop : (concat (es.drop n)).stop = none :=
    (concat_stop_iff _).2 fun e he => (concat_stop_iff _).1 h e (List.mem_of_mem_drop he)
  rw [concat_bytes h, concat_bytes hdrop]
  nth_rewrite 2 [← List.take_append_drop n es]
  rw [List.flatMap_append]
  exact List.suffix_append _ _

/-- The bytes of a part stand together. -/
theorem infix_concat {es : List Emission} (h : (concat es).stop = none) {e : Emission}
    (he : e ∈ es) : e.bytes <:+: (concat es).bytes := by
  rw [concat_bytes h, List.flatMap_def]
  exact List.infix_of_mem_flatten (List.mem_map_of_mem he)

theorem each_stop_iff (f : α → Emission) (xs : List α) :
    (each f xs).stop = none ↔ ∀ x ∈ xs, (f x).stop = none := by
  rw [each, concat_stop_iff, List.forall_mem_map]

theorem each_bytes {f : α → Emission} {xs : List α} (h : (each f xs).stop = none) :
    (each f xs).bytes = xs.flatMap fun x => (f x).bytes := by
  rw [each, concat_bytes h, List.flatMap_map]

theorem infix_each {f : α → Emission} {xs : List α} (h : (each f xs).stop = none) {x : α}
    (hx : x ∈ xs) : (f x).bytes <:+: (each f xs).bytes :=
  infix_concat h (List.mem_map_of_mem hx)

end Emission

open Emission

variable {h : Header}

namespace Header.Usable

theorem sized_stop (hu : h.Usable) (size : UInt8) (x : Nat) :
    (Encode.sized h size x).stop = none := by
  obtain ⟨order, horder⟩ := hu.order
  rw [Encode.sized, horder]
  rfl

theorem length_sized (hu : h.Usable) (size : UInt8) (x : Nat) :
    (Encode.sized h size x).bytes.length = size.toNat := by
  obtain ⟨order, horder⟩ := hu.order
  rw [Encode.sized, horder]
  exact Sized.length_write order size.toNat x

theorem string_stop (hu : h.Usable) (s : Bytes) : (Encode.string h s).stop = none := by
  rw [Encode.string, concat_cons, append_stop (hu.sized_stop _ _)]
  rfl

theorem length_string (hu : h.Usable) (s : Bytes) :
    (Encode.string h s).bytes.length = h.sizeTSize.toNat + (s.length + 1) := by
  have hstop := hu.string_stop s
  rw [Encode.string] at hstop ⊢
  rw [concat_bytes hstop]
  simp [hu.length_sized, ofBytes, ofByte]

theorem constant_stop (hu : h.Usable) {k : Constant}
    (htag : k.tag = Constant.numberTag ∨ k.tag = Constant.stringTag) :
    (Encode.constant h k).stop = none := by
  rw [Encode.constant, append_stop rfl]
  split_ifs with hnumber hstring
  · exact hu.sized_stop _ _
  · exact hu.string_stop _
  · exact absurd htag (not_or.2 ⟨hnumber, hstring⟩)

theorem localVar_stop (hu : h.Usable) (v : LocalVar) : (Encode.localVar h v).stop = none := by
  rw [Encode.localVar, concat_stop_iff]
  simp only [List.forall_mem_cons]
  exact ⟨hu.string_stop _, hu.sized_stop _ _, hu.sized_stop _ _, by simp⟩

end Header.Usable

/-! ## Functions inside of functions -/

/-- The second tree is the first one, or it is nested in it at some depth. -/
inductive FunctionTree.Contains {α : Type} : FunctionTree α → FunctionTree α → Prop where
  | self (t : FunctionTree α) : Contains t t
  | nested {body : α} {nested : List (FunctionTree α)} {t u : FunctionTree α} (ht : t ∈ nested)
      (hu : Contains t u) : Contains (.node body nested) u

theorem FunctionTree.Every.contains {α : Type} {P : α → Nat → Prop} {t u : FunctionTree α}
    (ht : t.Every P) (hu : t.Contains u) : u.Every P := by
  induction hu with
  | self t => exact ht
  | nested hmem _ ih => exact ih (ht.nested _ hmem)

/-- Every constant of the function is a number or a string. -/
def Prototype.ConstantsKnown (p : Prototype) : Prop :=
  ∀ k ∈ p.constants, k.tag = Constant.numberTag ∨ k.tag = Constant.stringTag

instance (p : Prototype) : Decidable p.ConstantsKnown :=
  inferInstanceAs (Decidable (∀ k ∈ p.constants, k.tag = _ ∨ k.tag = _))

namespace Encode

/-- Writing does not stop inside a tree of functions whose constants are numbers and strings. -/
theorem function_complete (hu : h.Usable) {t : FunctionTree Prototype}
    (ht : t.Every fun p _ => p.ConstantsKnown) : (Encode.function h t).stop = none := by
  induction ht with
  | @node p nested here _ ih =>
    have hcount : ∀ n : Int, (Encode.int h n).stop = none := fun n => hu.sized_stop _ _
    rw [function_node, concat_stop_iff]
    simp only [List.forall_mem_cons, each_stop_iff, count]
    exact ⟨hu.string_stop _, hcount _, hcount _, rfl, rfl, rfl, rfl,
      hcount _, fun w _ => hu.sized_stop _ _,
      hcount _, fun k hk => hu.constant_stop (here k hk), hcount _, ih,
      hcount _, fun v _ => hcount v, hcount _, fun v _ => hu.localVar_stop v,
      hcount _, fun u _ => hu.string_stop _, by simp⟩

/-- Writing does not stop inside a tree of functions with binary forms. -/
theorem function_stop (hu : h.Usable) {t : FunctionTree Prototype}
    (ht : t.Every fun p _ => p.Encodable) : (Encode.function h t).stop = none :=
  function_complete hu (ht.imp fun _ _ hp => hp.tags)

/-- The bytes of a function stand together in those of every function around it. -/
theorem function_infix {t u : FunctionTree Prototype} (hu : t.Contains u)
    (hstop : (Encode.function h t).stop = none) :
    (Encode.function h u).bytes <:+: (Encode.function h t).bytes := by
  induction hu with
  | self t => exact List.infix_refl _
  | @nested p nested t u hmem _ ih =>
    -- The nested functions are one part, in which each of them is one part again.
    rw [function_node] at hstop ⊢
    have hpart : (each (Encode.function h) nested).stop = none :=
      (concat_stop_iff _).1 hstop _ (by simp)
    have hthere := ih ((each_stop_iff _ _).1 hpart t hmem)
    exact (hthere.trans (infix_each hpart hmem)).trans (infix_concat hstop (by simp))

/-- How many bytes of a function come before the byte that counts its upvalues. -/
def upvalueTotalOffset (h : Header) (p : Prototype) : Nat :=
  h.sizeTSize.toNat + (p.source.length + 1) + 2 * h.intSize.toNat

/-- The upvalues are counted twice: in one byte behind the first three parts, and in front of their
names, with which the bytes of the function end. -/
theorem function_upvalues (hu : h.Usable) {p : Prototype} {nested : List (FunctionTree Prototype)}
    (hstop : (Encode.function h (.node p nested)).stop = none) :
    (Encode.function h (.node p nested)).bytes[upvalueTotalOffset h p]? =
        some (UInt8.ofNat p.upvalues.length) ∧
      (Encode.int h p.upvalues.length).bytes ++
          p.upvalues.flatMap (fun u => (Encode.string h u.name).bytes) <:+
        (Encode.function h (.node p nested)).bytes := by
  have hnames : (each (fun u => Encode.string h u.name) p.upvalues).stop = none :=
    (each_stop_iff _ _).2 fun u _ => hu.string_stop _
  rw [function_node] at hstop ⊢
  constructor
  · have hfront : ((Encode.string h p.source).bytes ++ (Encode.int h p.lineDefined).bytes ++
        (Encode.int h p.lastLineDefined).bytes).length = upvalueTotalOffset h p := by
      simp only [List.length_append, hu.length_string, Encode.int, hu.length_sized,
        upvalueTotalOffset]
      omega
    rw [concat_bytes hstop, List.flatMap_cons, List.flatMap_cons, List.flatMap_cons,
      ← List.append_assoc, ← List.append_assoc, List.getElem?_append_right hfront.le, hfront,
      Nat.sub_self]
    rfl
  · have hcount : (Encode.count h p.upvalues).stop = none := hu.sized_stop _ _
    have hlast : (concat [Encode.count h p.upvalues,
        each (fun u => Encode.string h u.name) p.upvalues]).bytes =
          (Encode.int h p.upvalues.length).bytes ++
            p.upvalues.flatMap fun u => (Encode.string h u.name).bytes := by
      rw [concat_cons, append_bytes hcount, concat_cons, concat_nil, append_ofBytes_nil,
        each_bytes hnames, Encode.count]
    rw [← hlast]
    exact concat_drop_suffix hstop 17

end Encode

end LuaAssembly
