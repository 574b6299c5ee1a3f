import Mathlib
import LuaAssembly.Proofs.Chunk.RoundTrip
import LuaAssembly.Proofs.Number.Conversion

/-!
# Cutting values to their width is stable

A chunk that was written and read again may have lost digits, but writing it once more gives the
same bytes: each restored value has the stored form of the original.  For integers and
instructions this is arithmetic modulo the width, and for numbers it is the stability of the
conversions.
-/
namespace LuaAssembly

open Emission

variable {h : Header}

/-! ## Values of declared width -/

namespace Sized

theorem toLittle_mod (size x : Nat) : toLittle size (x % 256 ^ size) = toLittle size x := by
  induction size generalizing x with
  | zero => rfl
  | succ size ih =>
    have hpow : 256 ^ (size + 1) = 256 * 256 ^ size := Nat.pow_succ'
    rw [toLittle, toLittle, hpow, Nat.mod_mul_right_mod, Nat.mod_mul_right_div_self, ih]

/-- Only the low bytes of a value are written. -/
theorem write_mod (order : ByteOrder) (size x : Nat) :
    write order size (x % 256 ^ size) = write order size x := by
  cases order <;> simp only [write, toLittle_mod]

/-- The signed number with the same low bytes is stored in the same way. -/
theorem wrap64_bmod_mod {size : Nat} (hsize : size ≤ 8) (v : Int) :
    wrap64 (v.bmod (2 ^ (8 * size))) % 256 ^ size = wrap64 v % 256 ^ size := by
  have hmod := wrap64_mod (v.bmod (2 ^ (8 * size))) hsize
  rw [← natCast_pow, Int.bmod_emod, natCast_pow, ← wrap64_mod v hsize] at hmod
  exact_mod_cast hmod

end Sized

theorem Encode.sized_congr {size : UInt8} {x y : Nat}
    (hxy : x % 256 ^ size.toNat = y % 256 ^ size.toNat) :
    Encode.sized h size x = Encode.sized h size y := by
  rw [sized, sized]
  split
  · rw [← Sized.write_mod, hxy, Sized.write_mod]
  · rfl

theorem Header.Usable.encode_restoredInt (hu : h.Usable) (v : Int) :
    Encode.int h (h.restoredInt v) = Encode.int h v := by
  refine Encode.sized_congr ?_
  rw [hu.restoredInt_eq, Sized.wrap64_bmod_mod hu.intSize.2]

theorem Header.encode_restoredWord (w : Word) :
    Encode.sized h h.instructionSize (h.restoredWord w).toNat =
      Encode.sized h h.instructionSize w.toNat := by
  refine Encode.sized_congr ?_
  have hlt : w.toNat % 256 ^ h.instructionSize.toNat < 2 ^ 32 :=
    (Nat.mod_le ..).trans_lt w.isLt
  rw [Header.restoredWord, BitVec.toNat_ofNat, Nat.mod_eq_of_lt hlt, Nat.mod_mod]

/-! ## Numbers -/

theorem Encode.numberCode_single (hfloat : h.integral = false) (hsize : h.numberSize = 4)
    (v : Number) : Encode.numberCode h v = v.narrow .single := by
  rw [numberCode, hfloat, if_neg (by decide), if_pos hsize]

namespace Header.Usable

/-- A number of an integer format was cut to an integer that a number expresses. -/
theorem restoredNumber_integral (hu : h.Usable) (hi : h.integral = true) (v : Number) :
    (h.restoredNumber v).isNaN = false ∧
      (h.restoredNumber v).truncate = v.truncate.bmod (2 ^ (8 * h.numberSize.toNat)) := by
  obtain ⟨-, hsize⟩ := hu.integerSize hi
  rw [Header.restoredNumber, Header.numberOf, if_pos hi, Encode.numberCode, if_pos hi,
    Sized.signExtend_wrap64 hsize]
  refine Number.truncate_ofInt (v.hasInt_truncate.bmod _) ?_
  have hle : 2 ^ (8 * h.numberSize.toNat) ≤ 2 ^ 64 := Nat.pow_le_pow_right (by decide) (by omega)
  have hlo := Int.le_bmod (x := v.truncate) (Nat.two_pow_pos (8 * h.numberSize.toNat))
  have hhi := Int.bmod_lt (x := v.truncate) (Nat.two_pow_pos (8 * h.numberSize.toNat))
  omega

theorem restoredNumber_single (hfloat : h.integral = false) (hsize : h.numberSize = 4)
    (v : Number) : h.restoredNumber v = .widen .single (v.narrow .single) := by
  have hlt : v.narrow .single < 256 ^ h.numberSize.toNat := by
    rw [hsize]
    exact v.narrow_single_lt
  rw [Header.restoredNumber, Encode.numberCode_single hfloat hsize, Nat.mod_eq_of_lt hlt,
    Header.numberOf, hfloat, if_neg (by decide), if_pos hsize]

/-- A restored number has the stored form of the number. -/
theorem encode_restoredNumber (hu : h.Usable) (v : Number) :
    Encode.number h (h.restoredNumber v) = Encode.number h v := by
  cases hi : h.integral with
  | true =>
    obtain ⟨-, hsize⟩ := hu.integerSize hi
    have htruncate := (hu.restoredNumber_integral hi v).2
    refine Encode.sized_congr ?_
    rw [Encode.numberCode, Encode.numberCode, if_pos hi, if_pos hi, htruncate]
    exact Sized.wrap64_bmod_mod hsize _
  | false =>
    rcases hu.floatSize hi with hs | hs
    · rw [restoredNumber_single hi hs, Encode.number, Encode.number,
        Encode.numberCode_single hi hs, Encode.numberCode_single hi hs,
        (Number.narrow_widen_narrow v).2]
    · rw [Header.restoredNumber_double hi hs]

end Header.Usable

/-! ## Functions and chunks -/

theorem Emission.each_map {α : Type} {f : α → Emission} {g : α → α} {xs : List α}
    (hg : ∀ x ∈ xs, f (g x) = f x) : each f (xs.map g) = each f xs := by
  rw [each, each, List.map_map]
  exact congrArg concat (List.map_congr_left hg)

theorem Encode.count_map {α β : Type} (g : α → β) (xs : List α) :
    Encode.count h (xs.map g) = Encode.count h xs := by
  rw [count, count, List.length_map]

theorem Header.Usable.encode_restoredConstant (hu : h.Usable) {k : Constant}
    (htag : k.tag = Constant.numberTag ∨ k.tag = Constant.stringTag) :
    Encode.constant h (k.restored h) = Encode.constant h k := by
  have hne : Constant.stringTag ≠ Constant.numberTag := by decide
  rcases htag with htag | htag
  · simp only [Encode.constant, Constant.restored, htag, if_true, Constant.ofNumber,
      hu.encode_restoredNumber]
  · simp only [Encode.constant, Constant.restored, htag, if_neg hne, if_true, Constant.ofString]

/-- The binary form of a function, apart from those nested in it, is not changed. -/
structure Prototype.SameForm (h : Header) (p q : Prototype) : Prop where
  prologue : Encode.prologue h p = Encode.prologue h q
  epilogue : Encode.epilogue h p = Encode.epilogue h q

theorem Header.Usable.sameForm_restored (hu : h.Usable) {p : Prototype} (hp : p.Encodable) :
    (p.restored h).SameForm h p where
  prologue := by
    have hcode : each (fun w => Encode.sized h h.instructionSize w.toNat)
        (p.code.map h.restoredWord) =
          each (fun w => Encode.sized h h.instructionSize w.toNat) p.code :=
      each_map fun w _ => Header.encode_restoredWord w
    simp only [Encode.prologue, Prototype.restored, hu.encode_restoredInt, List.length_map,
      Encode.count_map, hcode, each_map fun k hk => hu.encode_restoredConstant (hp.tags k hk)]
  epilogue := by
    have hlocals : ∀ v ∈ p.locals, Encode.localVar h (v.restored h) = Encode.localVar h v := by
      intro v _
      simp only [Encode.localVar, LocalVar.restored, hu.encode_restoredInt]
    have hupvalues : each (fun u => Encode.string h u.name) (p.upvalues.map Upvalue.restored) =
        each (fun u => Encode.string h u.name) p.upvalues :=
      each_map fun _ _ => rfl
    simp only [Encode.epilogue, Prototype.restored, Encode.count_map,
      each_map fun v _ => hu.encode_restoredInt v, each_map hlocals, hupvalues]

/-- A change that keeps the form of every function keeps the form of the tree. -/
theorem Encode.function_map {f : Prototype → Prototype} {t : FunctionTree Prototype}
    (ht : t.Every fun p _ => (f p).SameForm h p) :
    Encode.function h (t.map f) = Encode.function h t := by
  induction ht with
  | node here _ ih =>
    rw [FunctionTree.map_node, Encode.function, Encode.function, here.prologue, here.epilogue,
      count_map, functions_eq_each, functions_eq_each, each_map ih]

/-- A change that keeps the form of every function keeps the form of the chunk. -/
theorem Chunk.encode_map {c : Chunk} {f : Prototype → Prototype}
    (hc : c.main.Every fun p _ => (f p).SameForm c.header p) :
    (⟨c.header, c.main.map f⟩ : Chunk).encode = c.encode := by
  have habsent : (c.main.map f).isAbsent = c.main.isAbsent := by
    cases c.main <;> simp [FunctionTree.isAbsent]
  simp only [Chunk.encode, Chunk.refusal?, habsent, Encode.function_map hc]

/-- A chunk that was written and read again has the same binary form. -/
theorem Chunk.encode_restored {c : Chunk} (hp : c.header.problem? = none)
    (hc : c.main.Every fun p _ => p.Encodable) : c.restored.encode = c.encode :=
  Chunk.encode_map <| hc.imp fun _ _ => (Header.usable_of_problem? hp).sameForm_restored

end LuaAssembly
