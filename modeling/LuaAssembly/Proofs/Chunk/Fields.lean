import Mathlib
import LuaAssembly.Proofs.Chunk.ReadBack
import LuaAssembly.Proofs.Chunk.Stored

/-!
# Reading back the parts of a function

For each part of a chunk, the emission that writes it and the decoder that reads it belong
together.  Integers, instructions and numbers come back cut to their width; strings come back as
they are when their length can be stored; a count that is kept comes back when the reader accepts
it, and is refused otherwise.
-/
namespace LuaAssembly

namespace Bytes

/-- Taking as many bytes as are in front gives these and what follows. -/
theorem splitAt?_append (front back : Bytes) :
    splitAt? front.length (front ++ back) = some (front, back) := by
  induction front with
  | nil => rfl
  | cons b front ih => rw [List.length_cons, List.cons_append, splitAt?, ih]

end Bytes

namespace Sized

theorem pow_256 (n : Nat) : 256 ^ n = 2 ^ (8 * n) := by
  rw [Nat.pow_mul]

theorem pow_256_le {n : Nat} (hn : n ≤ 8) : 256 ^ n ≤ 2 ^ 64 := by
  rw [pow_256]
  exact Nat.pow_le_pow_right (by decide) (by omega)

theorem wrap64_natCast {n : Nat} (hn : n < 2 ^ 64) : wrap64 n = n := by
  rw [wrap64]
  omega

/-- An integer is congruent to its 64-bit value. -/
theorem wrap64_mod (v : Int) {n : Nat} (hn : n ≤ 8) :
    ((wrap64 v % 256 ^ n : Nat) : Int) = v % 256 ^ n := by
  have hdvd : (256 ^ n : Int) ∣ 2 ^ 64 := by
    have : (2 ^ 64 : Int) = 256 ^ n * 256 ^ (8 - n) := by
      rw [← pow_add, Nat.add_sub_cancel' hn]
      norm_num
    exact ⟨_, this⟩
  have hwrap : ((wrap64 v : Nat) : Int) = v % 2 ^ 64 := by
    rw [wrap64]
    omega
  push_cast
  rw [hwrap, Int.emod_emod_of_dvd v hdvd]

/-- The numbers of a width are as many negative as other ones. -/
theorem pow_width {size : Nat} (hsize : 1 ≤ size) : 2 ^ (8 * size) = 2 * 2 ^ (8 * size - 1) := by
  rw [← Nat.pow_succ']
  congr 1
  omega

/-- The signed number of a width that is congruent to a given one is the only one in its range. -/
theorem bmod_width_eq_iff {size : Nat} (hsize : 1 ≤ size) {v s : Int} :
    v.bmod (2 ^ (8 * size)) = s ↔
      (-2 ^ (8 * size - 1) ≤ s ∧ s < 2 ^ (8 * size - 1)) ∧ s ≡ v [ZMOD 2 ^ (8 * size)] := by
  have hhalf := pow_width hsize
  have hcast : ((2 ^ (8 * size - 1) : Nat) : Int) = 2 ^ (8 * size - 1) := by simp
  have hwidth : ((2 ^ (8 * size) : Nat) : Int) = 2 ^ (8 * size) := by simp
  rw [Int.bmod_eq_iff (Nat.two_pow_pos _), and_assoc, ← hcast, ← hwidth,
    Int.modEq_comm, Int.modEq_iff_dvd]
  omega

theorem natCast_pow (size : Nat) : ((2 ^ (8 * size) : Nat) : Int) = 256 ^ size := by
  rw [← pow_256]
  simp

/-- The signed number that is found where an integer was stored. -/
theorem signExtend_wrap64 {size : Nat} (hsize : size ≤ 8) (v : Int) :
    signExtend size (wrap64 v % 256 ^ size) = v.bmod (2 ^ (8 * size)) := by
  rw [signExtend, wrap64_mod v hsize, ← natCast_pow, Int.emod_bmod]

end Sized

open Emission

variable {h : Header} {total : Nat}

/-! ## Integers -/

theorem Encode.sized_eq {order : ByteOrder} (horder : ByteOrder.ofTag? h.endianness = some order)
    (size : UInt8) (x : Nat) :
    Encode.sized h size x = .ofBytes (Sized.write order size.toNat x) := by
  rw [Encode.sized, horder]

/-- What is written at some width is read at that width, and nothing of what follows it. -/
theorem Decode.sized_append {order : ByteOrder}
    (horder : ByteOrder.ofTag? h.endianness = some order) (size : UInt8) (part : Part) (x : Nat)
    (rest : Bytes) (pos : Nat) :
    Decode.sized h size part ⟨Sized.write order size.toNat x ++ rest, pos⟩ =
      .ok (x % 256 ^ size.toNat, ⟨rest, pos + size.toNat⟩) := by
  have hsplit := Bytes.splitAt?_append (Sized.write order size.toNat x) rest
  rw [Sized.length_write] at hsplit
  simp only [Decode.sized, bind, Decoder.andThen, Decoder.take, hsplit, pure, Decoder.value, horder,
    Option.getD_some, Sized.read_write]

theorem Header.Usable.sized_readIff (hu : h.Usable) (size : UInt8) (part : Part) (x : Nat) :
    ReadIff total (Encode.sized h size x) (Decode.sized h size part) (x % 256 ^ size.toNat)
      True := by
  obtain ⟨order, horder⟩ := hu.order
  rw [Encode.sized_eq horder]
  refine .always rfl fun _ rest pos => ?_
  rw [ofBytes, Decode.sized_append horder, Sized.length_write]

theorem Header.Usable.int_readIff (hu : h.Usable) (part : Part) (v : Int) :
    ReadIff total (Encode.int h v) (Decode.int h part) (h.restoredInt v) True :=
  (hu.sized_readIff h.intSize part _).map _

/-- An integer comes back as the signed number with the same low bytes. -/
theorem Header.Usable.restoredInt_eq (hu : h.Usable) (v : Int) :
    h.restoredInt v = v.bmod (2 ^ (8 * h.intSize.toNat)) :=
  Sized.signExtend_wrap64 hu.intSize.2 v

theorem Header.Usable.pow_intSize (hu : h.Usable) :
    2 ^ (8 * h.intSize.toNat) = 2 * 2 ^ (8 * h.intSize.toNat - 1) :=
  Sized.pow_width hu.intSize.1

/-- A count that is kept is read as it is, or as a negative number. -/
theorem Header.Usable.restoredInt_count (hu : h.Usable) {n : Nat} (hn : h.CountKept n) :
    h.restoredInt n =
      if n < 2 ^ (8 * h.intSize.toNat - 1) then (n : Int) else n - 2 ^ (8 * h.intSize.toNat) := by
  have hhalf := hu.pow_intSize
  have hcast : ((2 ^ (8 * h.intSize.toNat) : Nat) : Int) = 2 ^ (8 * h.intSize.toNat) := by simp
  rw [Header.CountKept] at hn
  rw [hu.restoredInt_eq, Int.bmod_def, Int.emod_eq_of_lt (by omega) (by omega)]
  split_ifs <;> omega

theorem Decode.count_of_int {part : Part} {c c' : Cursor} {n : Int}
    (hn : Decode.int h part c = .ok (n, c')) :
    Decode.count h part c =
      if n < 0 ∨ maxCount < n then .error (.count part n c'.pos) else .ok (n.toNat, c') := by
  simp only [count, bind, Decoder.andThen, hn, Decoder.position]
  split_ifs <;> rfl

theorem Header.Usable.count_readIff (hu : h.Usable) {α : Type} (part : Part) (xs : List α)
    (hkept : h.CountKept xs.length) :
    ReadIff total (Encode.count h xs) (Decode.count h part) xs.length (h.CountFits xs.length) := by
  have hint : ReadIff total (Encode.int h xs.length) (Decode.int h part)
      (h.restoredInt xs.length) True := hu.int_readIff part _
  rw [hu.restoredInt_count hkept] at hint
  have hlt : (xs.length : Int) < 2 ^ (8 * h.intSize.toNat) := by
    rw [Header.CountKept] at hkept
    exact_mod_cast hkept
  refine ⟨hint.complete, fun hle hfit rest pos => ?_, fun hle hfit rest pos => ?_⟩
  · have hd := hint.read hle trivial rest pos
    rw [if_pos hfit.1] at hd
    have hmax : ¬ ((xs.length : Int) < 0 ∨ Decode.maxCount < xs.length) := by
      have := hfit.2
      rw [Decode.maxCount]
      omega
    rw [Encode.count, Decode.count_of_int hd, if_neg hmax, Int.toNat_natCast]
  · have hd := hint.read hle trivial rest pos
    -- The number that is found is too large for a list, or negative.
    by_cases hhalf : xs.length < 2 ^ (8 * h.intSize.toNat - 1)
    · have hmax : ¬ xs.length ≤ 2 ^ 24 := fun hle => hfit ⟨hhalf, hle⟩
      rw [if_pos hhalf] at hd
      exact ⟨_, (Decode.count_of_int hd).trans (if_pos (.inr (by rw [Decode.maxCount]; omega)))⟩
    · rw [if_neg hhalf] at hd
      exact ⟨_, (Decode.count_of_int hd).trans (if_pos (.inl (Int.sub_neg_of_lt hlt)))⟩

/-! ## Strings -/

theorem Decode.dropTerminator_append (part : Part) (s : Bytes) :
    Decode.dropTerminator part (s ++ [0]) = .ok s := by
  induction s with
  | nil => rfl
  | cons b s ih =>
    cases s with
    | nil => rfl
    | cons b' s =>
      rw [List.cons_append, dropTerminator, ih]
      simp

theorem Header.Usable.string_readIff (hu : h.Usable) (lengthPart part : Part) {s : Bytes}
    (hs : h.LengthFits s) :
    ReadIff total (Encode.string h s) (Decode.string h total lengthPart part) s True := by
  have hlt : s.length + 1 < 256 ^ h.sizeTSize.toNat := by
    rw [Sized.pow_256]
    exact hs
  have hwrap : Sized.wrap64 (s.length + 1) % 256 ^ h.sizeTSize.toNat = s.length + 1 := by
    have := Sized.wrap64_natCast (hlt.trans_le (Sized.pow_256_le hu.sizeTSize.2))
    push_cast at this
    rw [this, Nat.mod_eq_of_lt hlt]
  -- The length comes first; the chunk is at least as long as what it announces.
  have hsized : ReadIff total (Encode.sized h h.sizeTSize (Sized.wrap64 (s.length + 1)))
      (Decode.sized h h.sizeTSize lengthPart) (s.length + 1) True := by
    rw [← hwrap]
    exact hu.sized_readIff h.sizeTSize lengthPart _
  have hbytes : (Encode.string h s).bytes =
      (Encode.sized h h.sizeTSize (Sized.wrap64 (s.length + 1))).bytes ++ (s ++ [0]) := by
    rw [Encode.string, concat_cons, append_bytes hsized.complete]
    rfl
  have hlen := congrArg List.length hbytes
  simp only [List.length_append, List.length_singleton] at hlen
  refine .always ?_ fun hle rest pos => ?_
  · rw [Encode.string, concat_cons, append_stop hsized.complete]
    rfl
  · have hd := hsized.read (by omega) trivial (s ++ [0] ++ rest) pos
    have hsplit := Bytes.splitAt?_append (s ++ [0]) rest
    rw [List.length_append, List.length_singleton] at hsplit
    rw [hbytes, List.append_assoc]
    simp only [Decode.string, bind, Decoder.andThen, hd, Nat.succ_ne_zero, if_false,
      if_neg (show ¬ total < s.length + 1 by omega), Decoder.take, hsplit,
      Decode.dropTerminator_append, pure, Decoder.value]
    rw [List.length_append, List.length_append, List.length_singleton, Nat.add_assoc]

/-! ## Elements of lists -/

theorem Header.Usable.instruction_readIff (hu : h.Usable) (w : Word) :
    ReadIff total (Encode.sized h h.instructionSize w.toNat) (Decode.instruction h)
      (h.restoredWord w) True :=
  (hu.sized_readIff h.instructionSize .instruction _).map _

theorem Decode.number_eq (h : Header) (part : Part) :
    Decode.number h part = Decode.sized h h.numberSize part >>= fun x => pure (h.numberOf x) := by
  funext c
  simp only [Decode.number, Header.numberOf, bind, Decoder.andThen]
  split
  · rfl
  · split_ifs <;> rfl

theorem Header.Usable.number_readIff (hu : h.Usable) (part : Part) (v : Number) :
    ReadIff total (Encode.number h v) (Decode.number h part) (h.restoredNumber v) True := by
  rw [Decode.number_eq]
  exact (hu.sized_readIff h.numberSize part _).map _

theorem byte_readIff (part : Part) (b : UInt8) :
    ReadIff total (.ofByte b) (Decoder.byte part) b True :=
  .always rfl fun _ _ _ => rfl

theorem Header.Usable.constant_readIff (hu : h.Usable) {k : Constant}
    (htag : k.tag = Constant.numberTag ∨ k.tag = Constant.stringTag)
    (hs : h.LengthFits k.string) :
    ReadIff total (Encode.constant h k) (Decode.constant h total) (k.restored h) True := by
  -- The position that is asked for first only serves messages.
  have hpos : ∀ {e : Emission} {d : Nat → Decoder Constant} {a : Constant},
      (∀ p, ReadIff total e (d p) a True) → ReadIff total e (Decoder.position >>= d) a True :=
    fun hd => ⟨(hd 0).complete, fun hle hP rest pos => (hd pos).read hle hP rest pos,
      fun hle hP rest pos => (hd pos).refuse hle hP rest pos⟩
  refine hpos fun p => ?_
  rw [Encode.constant, Constant.restored]
  rcases htag with htag | htag
  · simp only [htag, if_true]
    refine ((byte_readIff _ _).append ?_).congr (and_self_iff)
    rw [if_pos rfl]
    exact (hu.number_readIff _ _).map Constant.ofNumber
  · have hne : ¬ Constant.stringTag = Constant.numberTag := by decide
    simp only [htag, if_true, if_neg hne]
    refine ((byte_readIff _ _).append ?_).congr (and_self_iff)
    rw [if_neg hne, if_pos rfl]
    exact (hu.string_readIff _ _ hs).map Constant.ofString

theorem Header.Usable.localVar_readIff (hu : h.Usable) {v : LocalVar} (hs : h.LengthFits v.name) :
    ReadIff total (Encode.localVar h v) (Decode.localVar h total) (v.restored h) True := by
  refine .cons_always (hu.string_readIff _ _ hs) ?_
  refine .cons_always (hu.int_readIff _ _) ?_
  exact .cons_always (hu.int_readIff _ _) (.nil _)

end LuaAssembly
