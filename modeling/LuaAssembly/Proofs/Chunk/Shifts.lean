import Mathlib
import LuaAssembly.Proofs.Chunk.Limits

/-!
# Sized integers on machine words

On 64-bit words, bytes are taken off and put together by shifts, and a sign is extended by shifting
the value to the top of the word and back again.  The definitions of `Sized` speak of remainders and
quotients instead.  Here the two are shown to be the same at every width up to eight bytes, although
the shifts drop what leaves the word.

The main statement is the round trip.  A value that is written at some width, in either byte order,
is read back modulo that width, and sign extension turns it into the only signed number of the width
that is congruent to what was written.
-/
namespace LuaAssembly

namespace Sized

/-! ## Shifts -/

/-- The lowest byte of a word. -/
def lowByte (x : BitVec 64) : UInt8 :=
  ⟨x.setWidth 8⟩

/-- Takes bytes off a word.  The least significant one first means that the word is shifted after
every byte; the most significant one first means that the word stays, and each byte is reached by a
shorter shift than the one before. -/
def shiftOut : ByteOrder → Nat → BitVec 64 → Bytes
  | _, 0, _ => []
  | .little, size + 1, x => lowByte x :: shiftOut .little size (x >>> 8)
  | .big, size + 1, x => lowByte (x >>> (8 * size)) :: shiftOut .big size x

/-- Puts a byte below those that the word holds already. -/
def shiftByte (x : BitVec 64) (b : UInt8) : BitVec 64 :=
  x <<< 8 ||| b.toBitVec.setWidth 64

/-- Puts bytes together, the most significant one first. -/
def shiftIn : ByteOrder → Bytes → BitVec 64
  | .big, bs => bs.foldl shiftByte 0
  | .little, bs => bs.reverse.foldl shiftByte 0

/-- Shifts the value to the top of the word and back, where the sign follows it. -/
def shiftExtend (size : Nat) (x : BitVec 64) : Int :=
  ((x <<< (64 - 8 * size)).sshiftRight (64 - 8 * size)).toInt

theorem lowByte_eq (x : BitVec 64) : lowByte x = UInt8.ofNat (x.toNat % 256) := by
  apply UInt8.toNat.inj
  simp [lowByte]

/-- The most significant of the bytes is the last one. -/
theorem toLittle_succ (size x : Nat) :
    toLittle (size + 1) x = toLittle size x ++ [UInt8.ofNat (x / 256 ^ size % 256)] := by
  induction size generalizing x with
  | zero => simp [toLittle]
  | succ size ih =>
    rw [toLittle, ih, toLittle, Nat.div_div_eq_div_mul, ← Nat.pow_succ', List.cons_append]

/-- Bytes are written as they are taken off by shifts. -/
theorem write_eq_shiftOut (order : ByteOrder) (size : Nat) (x : BitVec 64) :
    write order size x.toNat = shiftOut order size x := by
  cases order with
  | little =>
    induction size generalizing x with
    | zero => rfl
    | succ size ih =>
      have hshift : x.toNat / 256 = (x >>> 8).toNat := by
        rw [BitVec.toNat_ushiftRight, Nat.shiftRight_eq_div_pow]
      have hrest : write .little size (x >>> 8).toNat = toLittle size (x.toNat / 256) := by
        rw [hshift, write]
      rw [shiftOut, ← ih, hrest, lowByte_eq]
      rfl
  | big =>
    induction size with
    | zero => rfl
    | succ size ih =>
      have hshift : x.toNat / 256 ^ size = (x >>> (8 * size)).toNat := by
        rw [BitVec.toNat_ushiftRight, Nat.shiftRight_eq_div_pow, pow_256]
      rw [write, toLittle_succ, List.reverse_append, hshift, ← lowByte_eq, shiftOut, ← ih]
      rfl

/-- As long as the word has room for another byte, nothing is shifted out of it. -/
theorem toNat_shiftByte {x : BitVec 64} (hx : x.toNat * 256 < 2 ^ 64) (b : UInt8) :
    (shiftByte x b).toNat = b.toNat + 256 * x.toNat := by
  have hb : b.toNat < 2 ^ 8 := b.toNat_lt
  have hbyte : (b.toBitVec.setWidth 64).toNat = b.toNat := by
    rw [BitVec.toNat_setWidth, UInt8.toNat_toBitVec]
    omega
  have hup : (x <<< 8).toNat = x.toNat <<< 8 := by
    rw [BitVec.toNat_shiftLeft, Nat.shiftLeft_eq, Nat.mod_eq_of_lt hx]
  rw [shiftByte, BitVec.toNat_or, hbyte, hup, ← Nat.shiftLeft_add_eq_or_of_lt hb, Nat.shiftLeft_eq]
  omega

theorem toNat_foldl_shiftByte {bs : Bytes} (hbs : bs.length ≤ 8) :
    (bs.foldl shiftByte 0).toNat = ofLittle bs.reverse := by
  induction bs using List.reverseRecOn with
  | nil => rfl
  | append_singleton bs b ih =>
    rw [List.length_append, List.length_singleton] at hbs
    have hword := ih (by omega)
    -- The bytes so far are seven at most.
    have hroom : (bs.foldl shiftByte 0).toNat * 256 < 2 ^ 64 := by
      have hbytes := ofLittle_lt bs.reverse
      have hpow := pow_256_le (n := bs.length + 1) hbs
      rw [List.length_reverse, ← hword] at hbytes
      rw [Nat.pow_succ] at hpow
      omega
    rw [List.foldl_append, List.foldl_cons, List.foldl_nil, toNat_shiftByte hroom, hword,
      List.reverse_append, List.reverse_singleton, List.singleton_append, ofLittle]

/-- Bytes are read as they are put together by shifts. -/
theorem read_eq_shiftIn (order : ByteOrder) {bs : Bytes} (hbs : bs.length ≤ 8) :
    read order bs = (shiftIn order bs).toNat := by
  cases order with
  | little =>
    rw [read, shiftIn, toNat_foldl_shiftByte (by simpa using hbs), List.reverse_reverse]
  | big => rw [read, shiftIn, toNat_foldl_shiftByte hbs]

/-! ## Signs -/

/-- Shifting to the top and back is sign extension. -/
theorem signExtend_eq_shiftExtend {size : Nat} (hsize : 1 ≤ size ∧ size ≤ 8) (x : BitVec 64) :
    signExtend size x.toNat = shiftExtend size x := by
  obtain ⟨⟨hlo, hhi⟩, hmod⟩ := (bmod_width_eq_iff hsize.1).1 (Eq.refl (signExtend size x.toNat))
  set s := signExtend size x.toNat
  set k := 64 - 8 * size with hk
  -- The word is the width and the places that the value is shifted by.
  have hword : ((2 ^ 64 : Nat) : Int) = 2 ^ (8 * size) * 2 ^ k := by
    rw [← pow_add, show 8 * size + k = 64 by omega]
    rfl
  have hhalf : (2 ^ (8 * size) : Int) * 2 ^ k = 2 * (2 ^ (8 * size - 1) * 2 ^ k) := by
    rw [← mul_assoc, ← pow_succ', show 8 * size - 1 + 1 = 8 * size by omega]
  have htop : ((x.toNat : Int) * 2 ^ k).bmod (2 ^ 64) = s * 2 ^ k := by
    have hpos : (0 : Int) < 2 ^ k := by positivity
    have hlo' := Int.mul_le_mul_of_nonneg_right hlo hpos.le
    have hhi' := Int.mul_lt_mul_of_pos_right hhi hpos
    rw [Int.neg_mul] at hlo'
    rw [Int.bmod_eq_iff (Nat.two_pow_pos 64), hword]
    refine ⟨by omega, by omega, ?_⟩
    rw [← Int.sub_mul]
    exact mul_dvd_mul_right (Int.modEq_iff_dvd.1 hmod.symm) _
  have hcast : ((2 ^ k : Nat) : Int) = 2 ^ k := by simp
  rw [shiftExtend, ← hk, BitVec.toInt_sshiftRight, BitVec.toInt_shiftLeft, Nat.shiftLeft_eq,
    Int.shiftRight_eq_div_pow, Nat.cast_mul, hcast, htop,
    Int.mul_ediv_cancel _ (pow_ne_zero k (by decide))]

/-- Sign extension finds the only signed number of the width that is congruent to what was
written. -/
theorem signExtend_wrap64_eq_iff {size : Nat} (hsize : 1 ≤ size ∧ size ≤ 8) {v s : Int} :
    signExtend size (wrap64 v % 256 ^ size) = s ↔
      (-2 ^ (8 * size - 1) ≤ s ∧ s < 2 ^ (8 * size - 1)) ∧ s ≡ v [ZMOD 2 ^ (8 * size)] := by
  rw [signExtend_wrap64 hsize.2, bmod_width_eq_iff hsize.1]

end Sized

open Sized

/-- Sized integers come back modulo their width.  In either byte order and at every width from one
to eight bytes, a word is written as that many bytes, and whatever follows them, reading takes just
these bytes and gives the word modulo the width.  When a signed number is written, sign extension of
what is read is the only number of the signed range of the width that is congruent to it, so it is
the number itself when that is in the range.  On words, all of this is computed by shifts. -/
theorem sized_roundTrip {h : Header} {order : ByteOrder} {size : UInt8}
    (horder : h.endianness = order.tag) (hsize : 1 ≤ size.toNat ∧ size.toNat ≤ 8) :
    (∀ (x : BitVec 64) (part : Part) (rest : Bytes) (pos : Nat),
      ∃ bytes, Encode.sized h size x.toNat = .ofBytes bytes ∧ bytes.length = size.toNat ∧
        Decode.sized h size part ⟨bytes ++ rest, pos⟩ =
          .ok (x.toNat % 2 ^ (8 * size.toNat), ⟨rest, pos + size.toNat⟩)) ∧
    (∀ (v : Int) (part : Part) (rest : Bytes) (pos : Nat),
      ∃ y, Decode.sized h size part ⟨(Encode.sized h size (wrap64 v)).bytes ++ rest, pos⟩ =
          .ok (y, ⟨rest, pos + size.toNat⟩) ∧
        (∀ s : Int, signExtend size.toNat y = s ↔
          (-2 ^ (8 * size.toNat - 1) ≤ s ∧ s < 2 ^ (8 * size.toNat - 1)) ∧
            s ≡ v [ZMOD 2 ^ (8 * size.toNat)]) ∧
        (-2 ^ (8 * size.toNat - 1) ≤ v → v < 2 ^ (8 * size.toNat - 1) →
          signExtend size.toNat y = v)) ∧
    ((∀ x : BitVec 64, write order size.toNat x.toNat = shiftOut order size.toNat x) ∧
      (∀ bs : Bytes, bs.length = size.toNat → read order bs = (shiftIn order bs).toNat) ∧
      ∀ x : BitVec 64, signExtend size.toNat x.toNat = shiftExtend size.toNat x) := by
  have htag : ByteOrder.ofTag? h.endianness = some order := by rw [horder, ByteOrder.ofTag?_tag]
  refine ⟨fun x part rest pos => ?_, fun v part rest pos => ?_, ?_, ?_, ?_⟩
  · refine ⟨write order size.toNat x.toNat, Encode.sized_eq htag size _, length_write _ _ _, ?_⟩
    rw [Decode.sized_append htag, pow_256]
  · have hiff : ∀ s : Int, signExtend size.toNat (wrap64 v % 256 ^ size.toNat) = s ↔ _ :=
      fun s => signExtend_wrap64_eq_iff hsize
    refine ⟨wrap64 v % 256 ^ size.toNat, ?_, hiff, fun hlo hhi => ?_⟩
    · rw [Encode.sized_eq htag, Emission.ofBytes, Decode.sized_append htag]
    · exact (hiff v).2 ⟨⟨hlo, hhi⟩, Int.ModEq.refl v⟩
  · exact fun x => write_eq_shiftOut order size.toNat x
  · exact fun bs hbs => read_eq_shiftIn order (hbs ▸ hsize.2)
  · exact fun x => signExtend_eq_shiftExtend hsize x

/-- A header whose integers have three bytes, the most significant one first. -/
def threeByteHeader : Header where
  format := 0
  endianness := ByteOrder.big.tag
  intSize := 3
  sizeTSize := 4
  instructionSize := 4
  numberSize := 8
  integral := false

theorem sized_roundTrip_threeByteHeader :
    (∃ bytes, Encode.sized threeByteHeader 3 (0x123456789 : BitVec 64).toNat = .ofBytes bytes ∧
      Decode.sized threeByteHeader 3 .line ⟨bytes ++ [0xFF], 20⟩ = .ok (0x456789, ⟨[0xFF], 23⟩)) ∧
    ∃ y, Decode.sized threeByteHeader 3 .line
        ⟨(Encode.sized threeByteHeader 3 (wrap64 8388608)).bytes ++ [0xFF], 20⟩ =
          .ok (y, ⟨[0xFF], 23⟩) ∧ signExtend 3 y = -8388608 := by
  obtain ⟨hword, hsigned, -⟩ := @sized_roundTrip threeByteHeader .big 3 rfl (by decide)
  constructor
  · obtain ⟨bytes, hbytes, -, hread⟩ := hword 0x123456789 .line [0xFF] 20
    exact ⟨bytes, hbytes, hread⟩
  · obtain ⟨y, hread, hunique, -⟩ := hsigned 8388608 .line [0xFF] 20
    exact ⟨y, hread, (hunique (-8388608)).2 (by decide)⟩

end LuaAssembly
