import Mathlib
import LuaAssembly.Proofs.Chunk.Extension
import LuaAssembly.Proofs.Chunk.Limits
import LuaAssembly.Proofs.Chunk.Stability

/-!
# Writing a chunk that was read

The reader takes more than one spelling of the same chunk.  A string of length zero is the empty
string, any byte but zero says that numbers are integers, an instruction may have bytes above its
word, and the names of upvalues may be missing.  The writer has one spelling only.  A chunk that
was read is written in it and then read as the same chunk, as long as the names that are now there
can be counted.
-/
namespace LuaAssembly

open Decoder

variable {h : Header} {total : Nat}

/-! ## Numbers as the reader gives them -/

/-- Every number that is read can be written again: numbers have the full format, or they are
integers narrow enough that each of them is a number. -/
def Header.KeepsNumbers (h : Header) : Prop :=
  (h.integral = false ∧ h.numberSize = 8) ∨ (h.integral = true ∧ h.numberSize.toNat ≤ 4)

theorem Sized.hasInt_signExtend {size : Nat} (hsize : size ≤ 4) (x : Nat) :
    Number.HasInt (Sized.signExtend size x) ∧ (Sized.signExtend size x).natAbs ≤ 2 ^ 64 := by
  have hle : 2 ^ (8 * size) ≤ 2 ^ 32 := Nat.pow_le_pow_right (by decide) (by omega)
  have hlo := Int.le_bmod (x := (x : Int)) (Nat.two_pow_pos (8 * size))
  have hhi := Int.bmod_lt (x := (x : Int)) (Nat.two_pow_pos (8 * size))
  have hsmall : (Sized.signExtend size x).natAbs < 2 ^ 53 := by
    rw [Sized.signExtend]
    omega
  exact ⟨⟨_, 0, hsmall, by rw [Nat.pow_zero, Nat.mul_one]⟩, hsmall.le.trans (by decide)⟩

/-- A number that was read is represented exactly in the format in which it was read. -/
theorem Header.KeepsNumbers.represents_numberOf (hk : h.KeepsNumbers) (hu : h.Usable) (x : Nat) :
    h.Represents (h.numberOf x) := by
  rcases hk with hfull | ⟨hi, hsize⟩
  · exact .inl hfull
  · obtain ⟨hint, hrange⟩ := Sized.hasInt_signExtend hsize x
    have htruncate : (h.numberOf x).truncate = Sized.signExtend h.numberSize.toNat x := by
      rw [numberOf, if_pos hi, (Number.truncate_ofInt hint hrange).2]
    rw [hu.represents_iff, restoredNumber, Encode.numberCode, if_pos hi, htruncate, numberOf,
      if_pos hi, Sized.signExtend_wrap64 (hu.integerSize hi).2, Sized.signExtend, Int.bmod_bmod,
      numberOf, if_pos hi, Sized.signExtend]

theorem Header.KeepsNumbers.ensures_constant (hk : h.KeepsNumbers) (hu : h.Usable) :
    (Decode.constant h total).Ensures fun k =>
      k.tag = Constant.numberTag → h.Represents k.number := by
  refine (ensures_true _).bind fun pos _ => (ensures_true _).bind fun tag _ => ?_
  split_ifs
  · have hnumber : (Decode.number h .numberConstant).Ensures h.Represents := by
      rw [Decode.number_eq]
      exact (ensures_true _).bind fun x _ => ensures_pure (hk.represents_numberOf hu x)
    exact hnumber.bind fun v hv => ensures_pure fun _ => hv
  · have hne : Constant.stringTag ≠ Constant.numberTag := by decide
    exact (ensures_true _).bind fun s _ => ensures_pure fun htag => absurd htag hne
  · exact ensures_fail _

/-- What holds of every constant that is read holds of every constant of a function. -/
theorem Decode.ensures_function_constants {P : Constant → Prop}
    (hP : (Decode.constant h total).Ensures P) (depth : Nat) :
    (Decode.function h total depth).Ensures fun t => t.Every fun p _ => ∀ k ∈ p.constants, P k := by
  induction depth with
  | zero => exact (ensures_true _).bind fun _ _ => ensures_fail _
  | succ depth ih =>
    rw [Decode.function]
    -- The constants and the nested functions matter, and nothing else does.
    refine (ensures_true _).bind fun _ _ => (ensures_true _).bind fun _ _ => ?_
    refine (ensures_true _).bind fun _ _ => (ensures_true _).bind fun _ _ => ?_
    refine (ensures_true _).bind fun _ _ => (ensures_true _).bind fun _ _ => ?_
    refine (ensures_true _).bind fun _ _ => (ensures_true _).bind fun _ _ => ?_
    refine (ensures_true _).bind fun _ _ => (ensures_true _).bind fun _ _ => ?_
    refine (hP.replicate _).bind fun constants hconstants => (ensures_true _).bind fun _ _ => ?_
    refine (ih.replicate _).bind fun nested hnested => (ensures_true _).bind fun _ _ => ?_
    refine (ensures_true _).bind fun _ _ => (ensures_true _).bind fun _ _ => ?_
    refine (ensures_true _).bind fun _ _ => (ensures_true _).bind fun _ _ => ensures_pure ?_
    exact .node hconstants.2 hnested.2

/-! ## Chunks like those that are read -/

namespace Prototype

variable {p : Prototype} {n : Nat}

theorem IsRead.fitsHeader (hp : p.IsRead h n)
    (hnumbers : ∀ k ∈ p.constants, k.tag = Constant.numberTag → h.Represents k.number)
    (hup : h.CountFits p.upvalues.length) : p.FitsHeader h n where
  lineDefined := hp.lineDefined
  lastLineDefined := hp.lastLineDefined
  lines := hp.lines
  locals := hp.locals
  words := hp.code
  counts := ⟨hp.codeCount, hp.constantCount, hp.nestedCount, hp.lineCount, hp.localCount, hup⟩
  strings := hp.strings
  upvalueTotal := hp.upvalueTotal
  upvalues := hp.upvalues
  constants := by
    intro k hk
    rcases hp.constants k hk with heq | heq
    · have htag : k.tag = Constant.numberTag := by rw [heq]; rfl
      exact .inl ⟨htag, by rw [heq]; rfl, hnumbers k hk htag⟩
    · exact .inr ⟨by rw [heq]; rfl, by rw [heq]; rfl⟩

end Prototype

namespace Chunk

/-- The reader can count the upvalues of every function. -/
def UpvaluesFit (c : Chunk) : Prop :=
  c.main.Every fun p _ => c.header.CountFits p.upvalues.length

instance (c : Chunk) : Decidable c.UpvaluesFit :=
  inferInstanceAs (Decidable (c.main.Every _))

variable {c : Chunk}

/-- Upvalues are few, so only narrow integers cannot count them. -/
theorem upvaluesFit_iff (hread : c.main.Every (Prototype.IsRead c.header)) :
    c.UpvaluesFit ↔
      c.main.Every fun p _ => p.upvalues.length < 2 ^ (8 * c.header.intSize.toNat - 1) := by
  constructor
  · intro hup
    exact hup.imp fun p n hp => hp.1
  · intro hup
    refine (hread.and hup).imp fun p n hp => ⟨hp.2, ?_⟩
    exact hp.1.upvalueTotal.trans (by decide)

/-- A chunk like those that are read has a binary form, which is read as the same chunk if the
upvalues can be counted, and not at all if they cannot. -/
theorem decode_encode_of_isRead (hproblem : c.header.problem? = none)
    (hread : c.main.Every (Prototype.IsRead c.header)) (hlevels : c.main.levels ≤ Decode.maxDepth)
    (hnumbers : c.main.Every fun p _ =>
      ∀ k ∈ p.constants, k.tag = Constant.numberTag → c.header.Represents k.number) :
    ∃ b, c.encode = .ok b ∧ ∀ c', Chunk.decode b = .ok c' ↔ c' = c ∧ c.UpvaluesFit := by
  have hu := Header.usable_of_problem? hproblem
  obtain ⟨b, hb, hok, herror⟩ := encode_readIff hproblem <|
    hread.imp fun p n hp => ⟨hp.encodable, hp.strings, hp.kept hu⟩
  refine ⟨b, hb, fun c' => ?_⟩
  by_cases hup : c.UpvaluesFit
  · have hfits : c.main.Every (Prototype.FitsHeader c.header) :=
      ((hread.and hnumbers).and hup).imp fun p n hp => hp.1.1.fitsHeader hp.1.2 hp.2
    have hrestored : c.restored = c := by
      rw [restored, hfits.map_eq_self fun p n hp => hu.restored_of_fits hp]
    rw [hok ⟨hfits.imp fun p n hp => hp.counts, hlevels⟩, hrestored]
    simp [hup, eq_comm]
  · obtain ⟨problem, hdecode⟩ :=
      herror fun hcounts => hup (hcounts.1.imp fun p n hp => hp.upvalues)
    simp [hdecode, hup]

/-- Writing a chunk that was read.  Whatever spelling it was read from, the chunk has a binary
form.  That form is read as the same chunk if integers can count the upvalues of every function,
and otherwise it is not read as any chunk. -/
theorem decode_encode_of_decode {bs : Bytes} (hdecode : Chunk.decode bs = .ok c)
    (hformat : c.header.KeepsNumbers) :
    ∃ out, c.encode = .ok out ∧ ∀ c', Chunk.decode out = .ok c' ↔ c' = c ∧
      c.main.Every fun p _ => p.upvalues.length < 2 ^ (8 * c.header.intSize.toNat - 1) := by
  obtain ⟨hproblem, hread, hlevels⟩ := isRead_of_decode hdecode
  have hu := Header.usable_of_problem? hproblem
  obtain ⟨rest, pos, -, hmain⟩ := decode_eq_ok_iff.1 hdecode
  have hnumbers := Decode.ensures_function_constants (hformat.ensures_constant hu) _ _ _ _ hmain
  obtain ⟨out, hout, hagain⟩ := decode_encode_of_isRead hproblem hread hlevels hnumbers
  refine ⟨out, hout, fun c' => ?_⟩
  rw [hagain, upvaluesFit_iff hread]

end Chunk

/-- Bytes with strings of length zero, with instructions of six bytes and with a function that has
upvalues but no names for them. -/
def looseBytes (upvalues : UInt8) : Bytes :=
  [ 0x1B, 0x4C, 0x75, 0x61, 0x51, 0x00, 0x01, 0x01, 0x01, 0x06, 0x08, 0x00,
    0x00, 0x00, 0x00, 0x00, 0x00, 0x02, 0x02,
    0x01, 0x1E, 0x00, 0x80, 0x00, 0xAB, 0xCD,
    0x02, 0x03, 0x01, 0x00, 0x00, 0x00, 0x00, 0x00, 0xF0, 0x7F, 0x04, 0x00,
    0x01,
    0x00, 0x01, 0x02, upvalues, 0x00, 0x00, 0x01, 0x00, 0x00, 0x00, 0x00,
    0x01, 0x00, 0x00, 0x01,
    0x00,
    0x00, 0x00, 0x00 ]

/-- The chunk that `looseBytes` spells. -/
def looseChunk (upvalues : UInt8) : Chunk where
  header := ⟨0, 1, 1, 1, 6, 8, false⟩
  main := .node
    { source := [], lineDefined := 0, lastLineDefined := 0, numParams := 0, isVararg := 2,
      maxStackSize := 2, code := [0x0080001E],
      constants := [.ofNumber ⟨0x7FF0000000000001⟩, .ofString []], lines := [], locals := [],
      upvalues := [] }
    [ .node
        { source := [], lineDefined := 1, lastLineDefined := 2, numParams := 0, isVararg := 0,
          maxStackSize := 1, code := [], constants := [], lines := [], locals := [⟨[], 0, 1⟩],
          upvalues := List.replicate upvalues.toNat ⟨[], 0, false⟩ }
        [] ]

/-- With two upvalues the chunk comes back from other bytes than it was read from.  A signed byte
does not count the names of a hundred and twenty-eight upvalues, so with that many the chunk is
written but not read. -/
theorem decode_encode_looseChunk :
    Chunk.decode (looseBytes 2) = .ok (looseChunk 2) ∧
      (∃ out, (looseChunk 2).encode = .ok out ∧ out ≠ looseBytes 2 ∧
        Chunk.decode out = .ok (looseChunk 2)) ∧
      Chunk.decode (looseBytes 128) = .ok (looseChunk 128) ∧
      ∃ out, (looseChunk 128).encode = .ok out ∧ ∀ c', Chunk.decode out ≠ .ok c' := by
  have hfew : Chunk.decode (looseBytes 2) = .ok (looseChunk 2) := by rfl
  have hmany : Chunk.decode (looseBytes 128) = .ok (looseChunk 128) := by rfl
  have hlength : ((looseChunk 2).encode.toOption.map List.length) ≠ some (looseBytes 2).length := by
    decide +kernel
  obtain ⟨out, hout, hread⟩ := Chunk.decode_encode_of_decode hfew (.inl ⟨rfl, rfl⟩)
  obtain ⟨out', hout', hread'⟩ := Chunk.decode_encode_of_decode hmany (.inl ⟨rfl, rfl⟩)
  refine ⟨hfew, ⟨out, hout, ?_, (hread _).2 ⟨rfl, by decide⟩⟩, hmany, out', hout', ?_⟩
  · rintro rfl
    rw [hout] at hlength
    exact hlength rfl
  · intro c' hc'
    have hcounted := ((hread' c').1 hc').2
    exact absurd hcounted (by decide +kernel)

end LuaAssembly
