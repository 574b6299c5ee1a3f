import Mathlib
import LuaAssembly.Proofs.Chunk.Delivery
import LuaAssembly.Proofs.Chunk.Limits
import LuaAssembly.Proofs.Chunk.Stability
import LuaAssembly.Proofs.Source.Parsed

/-!
# Assembled chunks

What the assembler writes is read back as the chunk cut to the widths of its header, provided that
the reader can take its lists, strings and nesting.  The chunk that is read back is listed and
assembled to the same bytes again: cutting values a second time changes nothing, and the listing
describes what it was made from.
-/
namespace LuaAssembly

/-! ## Delivery without a limit -/

/-- A sink without a limit takes the binary form of the chunk. -/
theorem Chunk.deliver_none_iff {c : Chunk} {b : Bytes} :
    c.deliver none = (b, .ok ()) ↔ c.encode = .ok b := by
  rw [deliver, Sink.limited]
  cases hencode : c.encode with
  | ok b' =>
    obtain ⟨hresult, -, htaken⟩ := writeTo_of_encode hencode none fun _ => ⟨utf8 "limit reached"⟩
    simp [hresult.2 (by simp), htaken]
  | error p => simp [writeTo_of_encode_error hencode]

theorem assemble_none_iff {source b : Bytes} {c : Chunk} (hp : parse source = .ok c) :
    assemble source none = (b, .ok ()) ↔ c.encode = .ok b := by
  rw [← Chunk.deliver_none_iff, assemble, hp]
  cases hd : c.deliver none with
  | mk taken result =>
    cases result with
    | ok u => simp [hd]
    | error problem => simp [hd]

/-! ## The chunk that is read back -/

variable {h : Header}

theorem Header.Usable.isInt32_restoredInt (hu : h.Usable) {v : Int} (hv : IsInt32 v) :
    IsInt32 (h.restoredInt v) := by
  rw [hu.restoredInt_eq]
  rcases Nat.lt_or_ge h.intSize.toNat 4 with hnarrow | hwide
  · have hle : 2 ^ (8 * h.intSize.toNat) ≤ 2 ^ 24 := Nat.pow_le_pow_right (by decide) (by omega)
    have hlo := Int.le_bmod (x := v) (Nat.two_pow_pos (8 * h.intSize.toNat))
    have hhi := Int.bmod_lt (x := v) (Nat.two_pow_pos (8 * h.intSize.toNat))
    exact ⟨by omega, by omega⟩
  · have hle : 2 ^ 32 ≤ 2 ^ (8 * h.intSize.toNat) := Nat.pow_le_pow_right (by decide) (by omega)
    obtain ⟨hlo, hhi⟩ := hv
    rw [Int.bmod_eq_of_le (by omega) (by omega)]
    exact ⟨hlo, hhi⟩

theorem Header.getLsbD_restoredWord (w : Word) (i : Nat) :
    (h.restoredWord w).getLsbD i =
      (decide (i < 8 * h.instructionSize.toNat) && w.getLsbD i) := by
  rw [Header.restoredWord, BitVec.getLsbD_ofNat, Sized.pow_256, Nat.testBit_mod_two_pow,
    ← BitVec.getLsbD]
  by_cases hi : i < 32
  · simp [hi]
  · simp [BitVec.getLsbD_of_ge w i (by omega)]

theorem Header.Usable.isInstruction_restoredWord (hu : h.Usable) {w : Word}
    (hw : w.IsInstruction) : (h.restoredWord w).IsInstruction := by
  obtain ⟨op, hop, hbits⟩ := hw
  rw [Word.opcode?_eq_some_iff] at hop
  -- The opcode lies in the lowest byte, which every width keeps.
  refine ⟨op, (Word.opcode?_eq_some_iff _ _).2 fun i hi => ?_, fun i hi => ?_⟩
  · have := hu.instructionSize.1
    rw [Header.getLsbD_restoredWord, decide_eq_true (by omega), Bool.true_and, hop i hi]
  · rw [Header.getLsbD_restoredWord, Bool.and_eq_true] at hi
    exact hbits i hi.2

theorem Constant.restored_tag (h : Header) (k : Constant) :
    (k.restored h).tag = Constant.numberTag ∨ (k.restored h).tag = Constant.stringTag := by
  rw [restored]
  split_ifs
  · exact .inl rfl
  · exact .inr rfl

theorem Constant.IsExact.restored_string {k : Constant} (hk : k.IsExact) (h : Header) :
    (k.restored h).string = k.string := by
  rw [restored]
  split_ifs with htag
  · rcases hk with ⟨hk, -⟩ | hk
    · rw [hk]
      rfl
    · rw [hk] at htag
      cases htag
  · rfl

/-- A function that can be listed still can be when its values were cut. -/
theorem Header.Usable.listable_restored (hu : h.Usable) {p : Prototype} (hp : p.Listable) :
    (p.restored h).Listable where
  lineDefined := hu.isInt32_restoredInt hp.lineDefined
  lastLineDefined := hu.isInt32_restoredInt hp.lastLineDefined
  code := List.forall_mem_map.2 fun w hw => hu.isInstruction_restoredWord (hp.code w hw)
  constants := List.forall_mem_map.2 fun k _ => k.restored_tag h
  lines := List.forall_mem_map.2 fun v hv => hu.isInt32_restoredInt (hp.lines v hv)
  locals := List.forall_mem_map.2 fun x hx =>
    ⟨hu.isInt32_restoredInt (hp.locals x hx).1, hu.isInt32_restoredInt (hp.locals x hx).2⟩
  upvalues := List.forall_mem_map.2 fun _ _ => show IsInt32 0 by decide
  upvalueCount := by
    simpa only [Prototype.restored, List.length_map] using hp.upvalueCount

/-- A restored number that is not a number is stored like the one that the listing describes. -/
theorem Header.Usable.encode_reread_restoredNumber (hu : h.Usable) {v : Number}
    (hv : v.isNaN → v = .nan) :
    Encode.number h (h.restoredNumber v).reread = Encode.number h (h.restoredNumber v) := by
  -- Only a floating-point format can hold what is not a number.
  cases hnan : (h.restoredNumber v).isNaN with
  | false => rw [Number.reread, hnan, if_neg Bool.false_ne_true]
  | true =>
    cases hi : h.integral with
    | true =>
      rw [(hu.restoredNumber_integral hi v).1] at hnan
      cases hnan
    | false =>
      rcases hu.floatSize hi with hs | hs
      · rw [Header.Usable.restoredNumber_single hi hs, (Number.narrow_widen_narrow v).1] at hnan
        rw [hv hnan, Header.Usable.restoredNumber_single hi hs, Encode.number, Encode.number,
          Encode.numberCode_single hi hs, Encode.numberCode_single hi hs]
        have hquiet : (Number.widen .single (Number.nan.narrow .single)).reread.narrow .single =
            (Number.widen .single (Number.nan.narrow .single)).narrow .single := by decide
        rw [hquiet]
      · rw [Header.restoredNumber_double hi hs] at hnan ⊢
        rw [hv hnan]
        rfl

theorem Header.Usable.encode_reread_restoredConstant (hu : h.Usable) {k : Constant}
    (hk : k.IsExact) :
    Encode.constant h (k.restored h).reread = Encode.constant h (k.restored h) := by
  have hne : Constant.stringTag ≠ Constant.numberTag := by decide
  rcases hk with ⟨hk, hnan⟩ | hk
  · have htag : k.tag = Constant.numberTag := by rw [hk]; rfl
    simp only [Constant.restored, htag, if_true, Constant.reread, Constant.ofNumber,
      Encode.constant, hu.encode_reread_restoredNumber hnan]
  · have htag : k.tag = Constant.stringTag := by rw [hk]; rfl
    simp only [Constant.restored, htag, if_neg hne, Constant.reread, Constant.ofString]

/-- The listing of a restored function describes a function of the same form. -/
theorem Header.Usable.sameForm_reread_restored (hu : h.Usable) {p : Prototype}
    (hp : ∀ k ∈ p.constants, k.IsExact) :
    (p.restored h).reread.SameForm h (p.restored h) where
  prologue := by
    have hconstants : ∀ k ∈ (p.restored h).constants,
        Encode.constant h k.reread = Encode.constant h k :=
      List.forall_mem_map.2 fun k hk => hu.encode_reread_restoredConstant (hp k hk)
    simp only [Encode.prologue, Prototype.reread, Encode.count_map, Emission.each_map hconstants]
  epilogue := rfl

namespace Chunk

/-- The listing of a chunk that was read back is assembled to the bytes it was read from. -/
theorem assemble_listing_restored {c : Chunk} {b : Bytes} (hvalid : c.header.validate = .ok ())
    (hc : c.main.Every fun p _ => p.Listable ∧ ∀ k ∈ p.constants, k.IsExact)
    (hb : c.encode = .ok b) :
    ∃ text, c.restored.listing? = some text ∧ assemble text none = (b, .ok ()) := by
  have hproblem := (Header.problem?_eq_none_iff_validate _).2 hvalid
  have hu := Header.usable_of_problem? hproblem
  have hlistable : c.restored.main.Every fun p _ => p.Listable :=
    hc.map fun p _ hp => hu.listable_restored hp.1
  have hsame : c.restored.main.Every fun p _ => p.reread.SameForm c.header p :=
    hc.map fun p _ hp => hu.sameForm_reread_restored hp.2
  obtain ⟨text, htext, hparse⟩ := parse_listing?_reread (c := c.restored) hvalid hlistable
  refine ⟨text, htext, (assemble_none_iff hparse).2 ?_⟩
  calc c.restored.reread.encode = c.restored.encode := encode_map hsame
    _ = c.encode := encode_restored hproblem (hc.imp fun p _ hp => hp.1.encodable)
    _ = .ok b := hb

theorem Fits.kept {c : Chunk} (h : c.Fits) :
    c.main.Every fun p n => p.CountsKept c.header n ∧ p.StringsFit c.header :=
  (h.counts.and h.strings).imp fun _ _ hp => ⟨hp.1.kept, hp.2⟩

section Written

variable {c : Chunk} {b : Bytes} (hproblem : c.header.problem? = none)
  (henc : c.main.Every fun p _ => p.Encodable) (hb : c.encode = .ok b)

include hproblem henc hb

/-- What was written is read back when the reader can take it. -/
theorem decode_of_fits (hfits : c.Fits) : Chunk.decode b = .ok c.restored := by
  obtain ⟨bs, hbs, hread, -⟩ := encode_readIff hproblem <|
    (henc.and hfits.kept).imp fun p n hp => ⟨hp.1, hp.2.2, hp.2.1⟩
  obtain rfl : b = bs := Except.ok.inj (hb.symm.trans hbs)
  exact hread ⟨hfits.counts, hfits.nesting⟩

/-- Where no count and no length is cut, only what the reader can take is read at all. -/
theorem fits_of_decode {c' : Chunk}
    (hkept : c.main.Every fun p n => p.CountsKept c.header n ∧ p.StringsFit c.header)
    (hdecode : Chunk.decode b = .ok c') : c.Fits := by
  obtain ⟨bs, hbs, -, hrefuse⟩ := encode_readIff hproblem <|
    (henc.and hkept).imp fun p n hp => ⟨hp.1, hp.2.2, hp.2.1⟩
  obtain rfl : b = bs := Except.ok.inj (hb.symm.trans hbs)
  by_contra hfits
  have hlimits : ¬ (c.main.Every (Prototype.CountsFit c.header) ∧
      c.main.levels ≤ Decode.maxDepth) := by
    rintro ⟨hcounts, hnesting⟩
    exact hfits ⟨hcounts, hkept.imp fun _ _ hp => hp.2, hnesting⟩
  obtain ⟨problem, herror⟩ := hrefuse hlimits
  cases hdecode.symm.trans herror

end Written

/-- The lists and strings of a chunk are as long as those of the restored chunk. -/
theorem kept_of_restored {c : Chunk} (hc : c.main.Every fun p _ => ∀ k ∈ p.constants, k.IsExact)
    (h : c.restored.main.Every fun p n => p.CountsKept c.header n ∧ p.StringsFit c.header) :
    c.main.Every fun p n => p.CountsKept c.header n ∧ p.StringsFit c.header := by
  refine (hc.and (hc.of_map h)).imp ?_
  rintro p n ⟨hexact, hcounts, hstrings⟩
  refine ⟨⟨?_, ?_, hcounts.nested, ?_, ?_, ?_⟩, ⟨hstrings.source, fun k hk => ?_, ?_, ?_⟩⟩
  · simpa [Prototype.restored] using hcounts.code
  · simpa [Prototype.restored] using hcounts.constants
  · simpa [Prototype.restored] using hcounts.lines
  · simpa [Prototype.restored] using hcounts.locals
  · simpa [Prototype.restored] using hcounts.upvalues
  · -- A number has no string, before and after.
    rw [← (hexact k hk).restored_string c.header]
    exact hstrings.constants _ (List.mem_map_of_mem hk)
  · exact fun v hv => hstrings.locals (v.restored c.header) (List.mem_map_of_mem hv)
  · exact fun u hm => hstrings.upvalues u.restored (List.mem_map_of_mem hm)

end Chunk

/-- Every assembled chunk that the reader can take is read back, and the listing of what was read
is assembled to the same bytes. -/
theorem assemble_listing_decode {source b : Bytes} {c : Chunk}
    (hassemble : assemble source none = (b, .ok ())) (hparse : parse source = .ok c)
    (hfits : c.Fits) :
    ∃ c' text, Chunk.decode b = .ok c' ∧ c'.listing? = some text ∧
      assemble text none = (b, .ok ()) := by
  obtain ⟨hvalid, hproper⟩ := parse_proper hparse
  have hb := (assemble_none_iff hparse).1 hassemble
  have hdecode := Chunk.decode_of_fits ((Header.problem?_eq_none_iff_validate _).2 hvalid)
    (hproper.imp fun _ _ hp => hp.1.encodable) hb hfits
  obtain ⟨text, hlisting, hagain⟩ := Chunk.assemble_listing_restored hvalid hproper hb
  exact ⟨c.restored, text, hdecode, hlisting, hagain⟩

/-- Source whose lines, local range and number do not fit the widths that it declares. -/
def narrowSource : Bytes :=
  [ utf8 ".version 5.1 .format 0 ", utf8 ".endianness BIG ", utf8 ".int_size 1 ",
    utf8 ".size_t_size 2 ", utf8 ".instruction_size 2 ", utf8 ".number_format integer 1\n",
    utf8 ".function main .source \"@n\" ", utf8 ".linedefined 300 ", utf8 ".lastlinedefined -1 ",
    utf8 ".numparams 0 .is_vararg 2 ", utf8 ".maxstacksize 2\n",
    utf8 ".constant k0 300.5 ", utf8 ".constant k1 \"x\\n\"\n", utf8 ".line 1000 ",
    utf8 ".local \"a\" 0 257\n", utf8 "loadk r0 k0\n", utf8 "closure r1 0\n", utf8 "return r0 1\n",
    utf8 ".function main/f .source \"\" ", utf8 ".linedefined 1 ", utf8 ".lastlinedefined 2 ",
    utf8 ".numparams 0 .is_vararg 0 ", utf8 ".maxstacksize 2\n", utf8 ".upvalue \"a\" 5 true\n",
    utf8 "getupval r0 0\n", utf8 "return r0 2\n" ].flatten

/-- The chunk that `narrowSource` describes. -/
def narrowChunk : Chunk where
  header := ⟨0, 0, 1, 2, 2, 1, true⟩
  main := .node
    { source := utf8 "@n", lineDefined := 300, lastLineDefined := -1, numParams := 0,
      isVararg := 2, maxStackSize := 2, code := [0x00000001, 0x00000064, 0x0080001E],
      constants := [.ofNumber ⟨0x4072C80000000000⟩, .ofString [0x78, 0x0A]],
      lines := [1000], locals := [⟨utf8 "a", 0, 257⟩], upvalues := [] }
    [ .node
        { source := [], lineDefined := 1, lastLineDefined := 2, numParams := 0, isVararg := 0,
          maxStackSize := 2, code := [0x00000004, 0x0100001E], constants := [], lines := [],
          locals := [], upvalues := [⟨utf8 "a", 5, true⟩] }
        [] ]

theorem assemble_listing_decode_narrowSource :
    ∃ b, assemble narrowSource none = (b, .ok ()) ∧ parse narrowSource = .ok narrowChunk ∧
      narrowChunk.Fits ∧ narrowChunk.restored ≠ narrowChunk ∧
      ∃ c' text, Chunk.decode b = .ok c' ∧ c'.listing? = some text ∧
        assemble text none = (b, .ok ()) := by
  have hparse : parse narrowSource = .ok narrowChunk := by decide +kernel
  have hfits : narrowChunk.Fits := by decide +kernel
  obtain ⟨b, hb⟩ : ∃ b, narrowChunk.encode = .ok b := ⟨_, rfl⟩
  have hassemble := (assemble_none_iff hparse).2 hb
  exact ⟨b, hassemble, hparse, hfits, by decide +kernel,
    assemble_listing_decode hassemble hparse hfits⟩

/-- When an assembled chunk is read back: exactly when the reader can take every count, every
length and the depth of nesting.  Then the chunk that is read has the same binary form.  Where no
count and no length was cut, nothing else at all is read from the bytes. -/
theorem decode_assembled_iff {source b : Bytes} {c : Chunk}
    (hassemble : assemble source none = (b, .ok ())) (hparse : parse source = .ok c) :
    (Chunk.decode b = .ok c.restored ↔ c.Fits) ∧ c.restored.encode = .ok b ∧
      ((c.main.Every fun p n => p.CountsKept c.header n ∧ p.StringsFit c.header) →
        ((∃ c', Chunk.decode b = .ok c' ∧ c'.encode = .ok b) ↔ c.Fits)) := by
  obtain ⟨hvalid, hproper⟩ := parse_proper hparse
  have hproblem := (Header.problem?_eq_none_iff_validate _).2 hvalid
  have henc := hproper.imp fun _ _ hp => hp.1.encodable
  have hb := (assemble_none_iff hparse).1 hassemble
  have hagain : c.restored.encode = .ok b := (Chunk.encode_restored hproblem henc).trans hb
  have hread := Chunk.decode_of_fits hproblem henc hb
  refine ⟨⟨fun hdecode => ?_, hread⟩, hagain, fun hkept => ⟨?_, fun hfits => ?_⟩⟩
  · -- The reader gives no list and no string that is too long to be stored.
    have hkept := Chunk.kept_of_restored (hproper.imp fun _ _ hp => hp.2)
      (Chunk.every_of_decode hdecode)
    exact Chunk.fits_of_decode hproblem henc hb hkept hdecode
  · rintro ⟨c', hdecode, -⟩
    exact Chunk.fits_of_decode hproblem henc hb hkept hdecode
  · exact ⟨c.restored, hread hfits, hagain⟩

/-- Source with one line entry more than an integer of one byte can count. -/
def crowdedSource : Bytes :=
  [ utf8 ".version 5.1 .format 0 ", utf8 ".endianness LITTLE ", utf8 ".int_size 1 ",
    utf8 ".size_t_size 1 ", utf8 ".instruction_size 4 ", utf8 ".number_format float 8\n",
    utf8 ".function main .source \"\" ", utf8 ".linedefined 0 ", utf8 ".lastlinedefined 0 ",
    utf8 ".numparams 0 .is_vararg 0 ", utf8 ".maxstacksize 2\n" ].flatten ++
    (List.replicate 128 (utf8 ".line 0\n")).flatten

/-- The chunk that `crowdedSource` describes. -/
def crowdedChunk : Chunk where
  header := ⟨0, 1, 1, 1, 4, 8, false⟩
  main := .node
    { source := [], lineDefined := 0, lastLineDefined := 0, numParams := 0, isVararg := 0,
      maxStackSize := 2, code := [], constants := [], lines := List.replicate 128 0,
      locals := [], upvalues := [] } []

/-- The assembler accepts source from which it writes a chunk that cannot be read. -/
theorem not_decode_crowdedSource :
    ∃ b, assemble crowdedSource none = (b, .ok ()) ∧ parse crowdedSource = .ok crowdedChunk ∧
      ¬ ∃ c, Chunk.decode b = .ok c ∧ c.encode = .ok b := by
  have hparse : parse crowdedSource = .ok crowdedChunk := by decide +kernel
  have hfits : ¬ crowdedChunk.Fits := by decide +kernel
  obtain ⟨b, hb⟩ : ∃ b, crowdedChunk.encode = .ok b := ⟨_, rfl⟩
  have hassemble := (assemble_none_iff hparse).2 hb
  have hkept : crowdedChunk.main.Every fun p n =>
      p.CountsKept crowdedChunk.header n ∧ p.StringsFit crowdedChunk.header :=
    .node (by decide +kernel) (by simp)
  exact ⟨b, hassemble, hparse,
    fun hread => hfits ((decode_assembled_iff hassemble hparse).2.2 hkept |>.1 hread)⟩

end LuaAssembly
