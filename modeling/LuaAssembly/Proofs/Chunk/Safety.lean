import Mathlib
import LuaAssembly.Proofs.Chunk.Indexed
import LuaAssembly.Proofs.Chunk.RoundTrip

/-!
# Reading arbitrary bytes

Bytes from anywhere can be given to the reader: any count, length or tag may stand in them, at any
depth.  It never looks outside of them, and what it gives in the end is not larger than they are:
every element of a list and every byte of a string was paid for by a byte that was read.  So no
count can make a small file into a large chunk.
-/
namespace LuaAssembly

/-! ## The size of what is read -/

namespace Decoder

variable {α β : Type} {k : Nat}

/-- What the reader gives, weighed by `w`, weighs no more than `k` and the bytes that it reads. -/
def Pays (k : Nat) (d : Decoder α) (w : α → Nat) : Prop :=
  ∀ c a c', d c = .ok (a, c') → w a + c'.rest.length ≤ k + c.rest.length

theorem pays_pure {a : α} {w : α → Nat} (h : w a ≤ k) : Pays k (pure a) w := by
  intro c a' c' ha
  cases ha
  omega

theorem pays_fail (p : DecodeProblem) (w : α → Nat) : Pays k (fail p) w :=
  fun _ _ _ h => by cases h

theorem pays_position : Pays 0 position fun _ => 0 := by
  intro c pos c' h
  cases h
  simp

/-- What the first part has paid for is still paid for at the end. -/
theorem Pays.bind {d : Decoder α} {f : α → Decoder β} {v : α → Nat} {w : β → Nat}
    (h : Pays 0 d v) (hf : ∀ a, Pays (k + v a) (f a) w) : Pays k (d >>= f) w := by
  intro c b c'' hb
  simp only [Bind.bind, andThen] at hb
  cases hd : d c with
  | error p => simp [hd] at hb
  | ok r =>
    obtain ⟨a, c'⟩ := r
    rw [hd] at hb
    have h₁ := h c a c' hd
    have h₂ := hf a c' b c'' hb
    omega

theorem Pays.replicate {d : Decoder α} {w : α → Nat} (h : Pays 0 d w) (n : Nat) :
    Pays 0 (replicate n d) fun xs => (xs.map w).sum := by
  induction n with
  | zero => exact pays_pure (by simp)
  | succ n ih =>
    rw [replicate_succ]
    exact h.bind fun x => ih.bind fun xs => pays_pure (by simp)

theorem pays_take (part : Part) (n : Nat) : Pays 0 (take part n) fun _ => n := by
  intro c bs c' h
  simp only [take, Bytes.splitAt?_eq] at h
  split_ifs at h with hn
  cases h
  simp only [List.length_drop]
  omega

theorem pays_take_length (part : Part) (n : Nat) : Pays 0 (take part n) List.length := by
  intro c bs c' h
  rw [ensures_take part n c bs c' h]
  exact pays_take part n c bs c' h

theorem pays_byte (part : Part) : Pays 0 (byte part) fun _ => 1 := by
  intro c b c' h
  obtain ⟨rest, pos⟩ := c
  cases rest with
  | nil => cases h
  | cons b' rest =>
    cases h
    simp only [List.length_cons]
    omega

end Decoder

/-- How many bytes the strings of a function have together. -/
def Prototype.stringBytes (p : Prototype) : Nat :=
  p.source.length + (p.constants.map fun k => k.string.length).sum +
    (p.locals.map fun v => v.name.length).sum + (p.upvalues.map fun u => u.name.length).sum

/-- How many elements the lists of a function have, and how many bytes its strings; the functions
nested in it are not counted. -/
def Prototype.extent (p : Prototype) : Nat :=
  p.code.length + p.constants.length + p.lines.length + p.locals.length + p.stringBytes

/-- How many code words, constants, nested functions, lines and local variables there are in all
functions of a chunk, and how many bytes their strings have. -/
def Chunk.extent (c : Chunk) : Nat :=
  (c.main.bodies.map Prototype.extent).sum + (c.main.bodies.length - 1)

/-- The functions of a tree, each with its lists and strings. -/
def FunctionTree.weight (t : FunctionTree Prototype) : Nat :=
  (t.bodies.map Prototype.extent).sum + t.bodies.length

theorem FunctionTree.weight_node (p : Prototype) (nested : List (FunctionTree Prototype)) :
    (node p nested).weight = p.extent + 1 + (nested.map weight).sum := by
  have hnested : ((bodiesAll nested).map Prototype.extent).sum + (bodiesAll nested).length =
      (nested.map weight).sum := by
    induction nested with
    | nil => rfl
    | cons t ts ih =>
      rw [bodiesAll, List.map_append, List.sum_append, List.length_append, List.map_cons,
        List.sum_cons, ← ih, weight]
      omega
  rw [weight, bodies, List.map_cons, List.sum_cons, List.length_cons, ← hnested]
  omega

namespace Decode

open Decoder

variable {h : Header} {total : Nat}

theorem pays_sized (size : UInt8) (part : Part) : Pays 0 (sized h size part) fun _ => size.toNat :=
  (pays_take part _).bind fun _ => pays_pure (by simp)

theorem pays_int (hu : h.Usable) (part : Part) : Pays 0 (int h part) fun _ => 1 :=
  (pays_sized h.intSize part).bind fun _ => pays_pure (by simpa using hu.intSize.1)

theorem pays_count (hu : h.Usable) (part : Part) : Pays 0 (count h part) fun _ => 0 := by
  refine (pays_int hu part).bind fun n => pays_position.bind fun pos => ?_
  split_ifs
  · exact pays_fail _ _
  · exact pays_pure (Nat.zero_le _)

theorem pays_string (lengthPart part : Part) :
    Pays 0 (string h total lengthPart part) List.length := by
  refine (pays_sized h.sizeTSize lengthPart).bind fun n => ?_
  split_ifs
  · exact pays_pure (Nat.zero_le _)
  · exact pays_fail _ _
  · refine (pays_take_length part n).bind fun bs => ?_
    split
    · rename_i s hs
      have hlength := length_of_dropTerminator hs
      exact pays_pure (by omega)
    · exact pays_fail _ _

theorem pays_number (part : Part) : Pays 0 (number h part) fun _ => 0 := by
  refine (pays_sized _ _).bind fun x => ?_
  split_ifs <;> exact pays_pure (Nat.zero_le _)

theorem pays_instruction (hu : h.Usable) : Pays 0 (instruction h) fun _ => 1 :=
  (pays_sized _ _).bind fun _ => pays_pure (by simpa using hu.instructionSize.1)

theorem pays_constant :
    Pays 0 (constant h total) fun k => 1 + k.string.length := by
  refine pays_position.bind fun pos => (pays_byte _).bind fun tag => ?_
  split_ifs
  · exact (pays_number _).bind fun v => pays_pure (by simp [Constant.ofNumber])
  · exact (pays_string _ _).bind fun s => pays_pure (by simp [Constant.ofString])
  · exact pays_fail _ _

theorem pays_localVar (hu : h.Usable) :
    Pays 0 (localVar h total) fun v => 1 + v.name.length := by
  refine (pays_string _ _).bind fun name => ?_
  refine (pays_int hu _).bind fun first => (pays_int hu _).bind fun last => pays_pure ?_
  simp only
  omega

theorem pays_upvalues (hu : h.Usable) (nups : UInt8) :
    Pays 0 (upvalues h total nups) fun us => (us.map fun u => u.name.length).sum := by
  refine (pays_count hu _).bind fun n => ?_
  split_ifs
  · exact pays_fail _ _
  · refine ((pays_string _ _).replicate n).bind fun names => pays_pure ?_
    simp [Function.comp_def]

theorem pays_function (hu : h.Usable) (depth : Nat) :
    Pays 0 (function h total depth) FunctionTree.weight := by
  induction depth with
  | zero => exact pays_position.bind fun _ => pays_fail _ _
  | succ depth ih =>
    rw [function]
    refine (pays_string _ _).bind fun source => ?_
    refine (pays_int hu _).bind fun _ => (pays_int hu _).bind fun _ => ?_
    refine (pays_byte _).bind fun nups => (pays_byte _).bind fun _ => ?_
    refine (pays_byte _).bind fun _ => (pays_byte _).bind fun _ => ?_
    refine (pays_count hu _).bind fun _ => ((pays_instruction hu).replicate _).bind fun code => ?_
    refine (pays_count hu _).bind fun _ => (pays_constant.replicate _).bind fun constants => ?_
    refine (pays_count hu _).bind fun _ => (ih.replicate _).bind fun nested => ?_
    refine (pays_count hu _).bind fun _ => ((pays_int hu _).replicate _).bind fun lines => ?_
    refine (pays_count hu _).bind fun _ => ((pays_localVar hu).replicate _).bind fun locals => ?_
    refine (pays_upvalues hu nups).bind fun upvalues => pays_pure ?_
    rw [FunctionTree.weight_node]
    simp only [Prototype.extent, Prototype.stringBytes, List.sum_map_add, List.map_const',
      List.sum_replicate, smul_eq_mul, mul_one]
    omega

end Decode

/-! ## Chunks -/

namespace Chunk

variable {bs : Bytes} {c : Chunk}

theorem extent_le_of_decode (h : Chunk.decode bs = .ok c) : c.extent ≤ bs.length := by
  obtain ⟨rest, pos, hheader, hmain⟩ := decode_eq_ok_iff.1 h
  have hu := Header.usable_of_problem? (Decode.problem?_of_header hheader)
  have hpays := Decode.pays_function hu _ _ _ _ hmain
  obtain ⟨rfl, -⟩ := (Indexed.header_eq bs).2 _ _ hheader
  simp only [FunctionTree.weight, List.length_nil, List.length_drop] at hpays
  rw [extent]
  omega

/-- A chunk that was read has a binary form. -/
theorem exists_encode_of_decode (h : Chunk.decode bs = .ok c) : ∃ out, c.encode = .ok out := by
  obtain ⟨hproblem, hread, -⟩ := isRead_of_decode h
  have hu := Header.usable_of_problem? hproblem
  obtain ⟨out, hout, -⟩ := encode_readIff hproblem <|
    hread.imp fun p n hp => ⟨hp.encodable, hp.strings, hp.kept hu⟩
  exact ⟨out, hout⟩

/-- Reading is safe on every input.  The reader by position, which would notice any access outside
of the bytes and any step back, ends as the reader does.  If a chunk is read, its header can be
used, functions are nested at most two hundred levels deep, all values and lists are within their
limits, everything together is not larger than the bytes, and the chunk can be written. -/
theorem decode_safe (bs : Bytes) :
    Indexed.decode bs = (Chunk.decode bs).mapError Indexed.Stop.problem ∧
      ∀ c, Chunk.decode bs = .ok c →
        c.header.validate = .ok () ∧ c.main.levels ≤ 200 ∧
          c.main.Every (Prototype.IsRead c.header) ∧ c.extent ≤ bs.length ∧
          ∃ out, c.encode = .ok out := by
  refine ⟨Indexed.decode_eq bs, fun c hc => ?_⟩
  obtain ⟨hproblem, hread, hlevels⟩ := isRead_of_decode hc
  exact ⟨(Header.problem?_eq_none_iff_validate _).1 hproblem, hlevels, hread,
    extent_le_of_decode hc, exists_encode_of_decode hc⟩

end Chunk

theorem decode_safe_nestedBytes :
    Indexed.decode nestedBytes = .ok nestedChunk ∧ nestedChunk.extent = 11 ∧
      nestedChunk.main.Every (Prototype.IsRead nestedChunk.header) ∧
      nestedChunk.extent ≤ nestedBytes.length ∧ ∃ out, nestedChunk.encode = .ok out := by
  have hdecode : Chunk.decode nestedBytes = .ok nestedChunk := by rfl
  obtain ⟨hindexed, hchunk⟩ := Chunk.decode_safe nestedBytes
  obtain ⟨-, -, hread, hextent, hencode⟩ := hchunk nestedChunk hdecode
  rw [hdecode] at hindexed
  exact ⟨hindexed, by decide +kernel, hread, hextent, hencode⟩

end LuaAssembly
