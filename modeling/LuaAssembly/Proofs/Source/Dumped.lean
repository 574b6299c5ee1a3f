import Mathlib
import LuaAssembly.Proofs.Chunk.Respelling
import LuaAssembly.Proofs.Source.Reassembly

/-!
# Listings of chunks that were read

A chunk that was read from bytes is listed, and the listing is assembled again.  The assembler
refuses the listing when an integer in it has more than 32 bits, which wide integers can have.
Otherwise it accepts the listing, and everything comes back but two things.  Words of the code that
are no instructions are changed or lost: stray bits are not written, and a word without an
operation, such as the data behind a `setlist`, is only a comment.  And a function that was
stripped of the names of its upvalues gets empty names, which narrow integers may not be able to
count.
-/
namespace LuaAssembly

/-! ## Words as they are listed -/

theorem Word.lt_of_listed? {w w' : Word} (h : w.listed? = some w') {n : Nat}
    (hw : w.toNat < 2 ^ n) : w'.toNat < 2 ^ n := by
  apply Nat.lt_pow_two_of_testBit
  intro i hi
  have hbit : w.getLsbD i = false := by
    rw [BitVec.getLsbD]
    exact Nat.testBit_lt_two_pow (hw.trans_le (Nat.pow_le_pow_right (by decide) hi))
  rw [← BitVec.getLsbD, Bool.eq_false_iff]
  intro hi'
  rw [getLsbD_of_listed? h hi'] at hbit
  cases hbit

namespace Prototype

variable {h : Header} {p : Prototype} {n : Nat}

/-- With its code as it is listed, a function that was read could have been read as well. -/
theorem IsRead.listed (hp : p.IsRead h n) : p.listed.IsRead h n where
  lineDefined := hp.lineDefined
  lastLineDefined := hp.lastLineDefined
  codeCount :=
    have hle : (p.code.filterMap Word.listed?).length ≤ p.code.length :=
      List.length_filterMap_le _ _
    ⟨hle.trans_lt hp.codeCount.1, hle.trans hp.codeCount.2⟩
  code := by
    intro w' hw'
    obtain ⟨w, hw, hlisted⟩ := List.mem_filterMap.1 hw'
    exact Word.lt_of_listed? hlisted (hp.code w hw)
  constantCount := hp.constantCount
  constants := hp.constants
  nestedCount := hp.nestedCount
  lineCount := hp.lineCount
  lines := hp.lines
  localCount := hp.localCount
  locals := hp.locals
  upvalueTotal := hp.upvalueTotal
  upvalues := hp.upvalues
  strings := ⟨hp.strings.source, hp.strings.constants, hp.strings.locals, hp.strings.upvalues⟩

/-- The listing keeps every constant that was read, apart from those that are not numbers. -/
theorem IsRead.reread_listed (hp : p.IsRead h n)
    (hnan : ∀ k ∈ p.constants, ¬ k.number.isNaN) : p.listed.reread = p.listed := by
  have hconstants : p.constants.map Constant.reread = p.constants := by
    refine (List.map_congr_left fun k hk => ?_).trans (List.map_id' _)
    refine Constant.IsExact.reread_eq ((hp.constants k hk).imp_left fun heq => ⟨heq, ?_⟩)
    exact fun h => absurd h (hnan k hk)
  rw [reread, Prototype.listed, hconstants]

end Prototype

namespace Chunk

/-- The chunk with its code as it is listed. -/
def listed (c : Chunk) : Chunk :=
  ⟨c.header, c.main.map Prototype.listed⟩

variable {c : Chunk}

theorem listed_eq_self_iff (hread : c.main.Every (Prototype.IsRead c.header)) :
    c.listed = c ↔ c.main.Every fun p _ => ∀ w ∈ p.code, w.IsInstruction := by
  have hmain : c.main.map Prototype.listed = c.main ↔
      c.main.Every fun p _ => ∀ w ∈ p.code, w.IsInstruction := by
    simp only [hread.map_eq_self_iff, Prototype.listed_eq_self_iff]
  rw [← hmain]
  exact ⟨fun heq => congrArg Chunk.main heq, fun heq => by rw [listed, heq]⟩

theorem upvaluesFit_listed (hread : c.main.Every (Prototype.IsRead c.header)) :
    c.listed.UpvaluesFit ↔ c.UpvaluesFit :=
  ⟨fun h => hread.of_map h, fun h => h.map fun _ _ hp => hp⟩

end Chunk

theorem exists_parse_of_assemble {source b : Bytes} {capacity : Option Nat}
    (h : assemble source capacity = (b, .ok ())) : ∃ c, parse source = .ok c := by
  rw [assemble] at h
  cases hparse : parse source with
  | error failure =>
    rw [hparse] at h
    cases h
  | ok c => exact ⟨c, rfl⟩

/-- What becomes of a chunk that was read, with numbers in the full format and none that is not a
number, when its listing is assembled.  The listing is accepted exactly when all integers in it
are integers of 32 bits.  What is written then is read as the chunk with its code as it is listed,
or, where upvalues cannot be counted, not at all.  So the same chunk comes back exactly when all of
its code is instructions and all upvalues can be counted. -/
theorem Chunk.decode_assemble_listing_iff {b : Bytes} {c : Chunk}
    (hdecode : Chunk.decode b = .ok c) (hfloat : c.header.integral = false)
    (hsize : c.header.numberSize = 8)
    (hnan : c.main.Every fun p _ => ∀ k ∈ p.constants, ¬ k.number.isNaN) :
    ∃ text, c.listing? = some text ∧
      ((∃ b', assemble text none = (b', .ok ())) ↔ c.main.Every fun p _ => p.InRange) ∧
      ∀ b', assemble text none = (b', .ok ()) →
        (∀ c', Chunk.decode b' = .ok c' ↔ c' = c.listed ∧ c.UpvaluesFit) ∧
        (Chunk.decode b' = .ok c ↔
          (c.main.Every fun p _ => ∀ w ∈ p.code, w.IsInstruction) ∧ c.UpvaluesFit) := by
  obtain ⟨hproblem, hread, hlevels⟩ := Chunk.isRead_of_decode hdecode
  obtain ⟨text, htext, hparse⟩ := Chunk.parse_listing?_iff
    ((Header.problem?_eq_none_iff_validate _).1 hproblem) (hread.imp fun p n hp => hp.encodable)
  have hrelisted : c.relisted = c.listed := by
    rw [Chunk.relisted, Chunk.listed, (hread.and hnan).map_congr fun p n hp =>
      hp.1.reread_listed hp.2]
  rw [hrelisted] at hparse
  obtain ⟨b₁, hb₁, hagain⟩ := Chunk.decode_encode_of_isRead (c := c.listed) hproblem
    (hread.map fun p n hp => hp.listed) (by rwa [Chunk.listed, FunctionTree.levels_map])
    (hread.map fun p n hp k _ _ => .inl ⟨hfloat, hsize⟩)
  simp only [Chunk.upvaluesFit_listed hread] at hagain
  refine ⟨text, htext, ⟨?_, fun hrange => ?_⟩, fun b' hb' => ?_⟩
  · rintro ⟨b', hb'⟩
    obtain ⟨c', hc'⟩ := exists_parse_of_assemble hb'
    exact ((hparse c').1 hc').1
  · exact ⟨b₁, (assemble_none_iff ((hparse _).2 ⟨hrange, rfl⟩)).2 hb₁⟩
  · obtain ⟨c', hc'⟩ := exists_parse_of_assemble hb'
    obtain ⟨-, rfl⟩ := (hparse c').1 hc'
    obtain rfl : b' = b₁ := Except.ok.inj (((assemble_none_iff hc').1 hb').symm.trans hb₁)
    refine ⟨hagain, ?_⟩
    rw [hagain, ← Chunk.listed_eq_self_iff hread, eq_comm]

/-- The bytes of `batchChunk`. -/
def batchBytes : Bytes :=
  [ 0x1B, 0x4C, 0x75, 0x61, 0x51, 0x00, 0x01, 0x04, 0x04, 0x04, 0x08, 0x00,
    0x01, 0x00, 0x00, 0x00, 0x00, 0x00, 0x00, 0x00, 0x00, 0x00, 0x00, 0x00, 0x00,
    0x00, 0x00, 0x02, 0x02,
    0x04, 0x00, 0x00, 0x00, 0x0A, 0x00, 0x00, 0x00, 0x22, 0x00, 0x00, 0x00,
    0x26, 0x02, 0x00, 0x00, 0x1E, 0x00, 0x80, 0x00,
    0x00, 0x00, 0x00, 0x00, 0x00, 0x00, 0x00, 0x00, 0x00, 0x00, 0x00, 0x00,
    0x00, 0x00, 0x00, 0x00, 0x00, 0x00, 0x00, 0x00 ]

/-- A chunk in which the word behind a `setlist` is the number of a batch of elements. -/
def batchChunk : Chunk where
  header := ⟨0, 1, 4, 4, 4, 8, false⟩
  main := .node
    { source := [], lineDefined := 0, lastLineDefined := 0, numParams := 0, isVararg := 2,
      maxStackSize := 2, code := [0x0000000A, 0x00000022, 0x00000226, 0x0080001E],
      constants := [], lines := [], locals := [], upvalues := [] } []

/-- The number of the batch is lost, and the rest of the code comes back. -/
theorem decode_assemble_listing_batchChunk :
    Chunk.decode batchBytes = .ok batchChunk ∧
      ∃ text b' c', batchChunk.listing? = some text ∧ assemble text none = (b', .ok ()) ∧
        Chunk.decode b' = .ok c' ∧ c' ≠ batchChunk ∧
        c'.main.bodies.map Prototype.code = [[0x0000000A, 0x00000022, 0x0080001E]] := by
  have hdecode : Chunk.decode batchBytes = .ok batchChunk := by rfl
  have hrange : batchChunk.main.Every fun p _ => p.InRange :=
    .node ⟨by decide, by decide, by simp, by simp, by simp⟩ (by simp)
  have hup : batchChunk.UpvaluesFit := by decide
  have hlisted : batchChunk.listed ≠ batchChunk := by decide +kernel
  obtain ⟨text, htext, hiff, hall⟩ :=
    Chunk.decode_assemble_listing_iff hdecode rfl rfl (.node (by simp) (by simp))
  obtain ⟨b', hb'⟩ := hiff.2 hrange
  exact ⟨hdecode, text, b', batchChunk.listed, htext, hb', ((hall b' hb').1 _).2 ⟨rfl, hup⟩,
    hlisted, by decide +kernel⟩

end LuaAssembly
