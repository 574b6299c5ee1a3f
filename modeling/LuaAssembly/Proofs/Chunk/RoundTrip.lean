import Mathlib
import LuaAssembly.Proofs.Chunk.Fields

/-!
# The binary round trip

What is written for a function and for a whole chunk is read back, whatever bytes follow.  The
reader gives the chunk with its values cut to the widths of the header (`Chunk.restored`), and it
does so exactly when it can take the counts and the depth of nesting.  A chunk whose values fit its
header loses nothing, so it is read back as it is.
-/
namespace LuaAssembly

open Emission

variable {h : Header} {total : Nat}

/-! ## Functions -/

theorem Encode.functions_eq_each (fs : List (FunctionTree Prototype)) :
    Encode.functions h fs = .each (Encode.function h) fs := by
  induction fs with
  | nil => rw [Encode.functions, each_nil, concat_nil]
  | cons f fs ih => rw [Encode.functions, ih, each_cons]

/-- The parts of a function in the order in which they are written. -/
theorem Encode.function_node (p : Prototype) (nested : List (FunctionTree Prototype)) :
    Encode.function h (.node p nested) =
      .concat
        [ string h p.source, int h p.lineDefined, int h p.lastLineDefined,
          .ofByte (UInt8.ofNat p.upvalues.length), .ofByte p.numParams, .ofByte p.isVararg,
          .ofByte p.maxStackSize,
          count h p.code, .each (fun w => sized h h.instructionSize w.toNat) p.code,
          count h p.constants, .each (constant h) p.constants,
          count h nested, .each (Encode.function h) nested,
          count h p.lines, .each (int h) p.lines,
          count h p.locals, .each (localVar h) p.locals,
          count h p.upvalues, .each (fun u => string h u.name) p.upvalues ] := by
  rw [Encode.function, functions_eq_each, prologue, epilogue]
  simp only [concat_cons, concat_nil, append_assoc, append_ofBytes_nil]
  rfl

theorem Header.Usable.upvalues_readIff (hu : h.Usable) {us : List Upvalue}
    (hcount : us.length ≤ 255) (hkept : h.CountKept us.length)
    (hnames : ∀ u ∈ us, h.LengthFits u.name) :
    ReadIff total (.concat [Encode.count h us, .each (fun u => Encode.string h u.name) us])
      (Decode.upvalues h total (UInt8.ofNat us.length)) (us.map Upvalue.restored)
      (h.CountFits us.length) := by
  have hbyte : (UInt8.ofNat us.length).toNat = us.length := by
    rw [UInt8.toNat_ofNat']
    omega
  refine ((hu.count_readIff _ us hkept).cons ?_).congr (iff_of_eq (and_true _))
  rw [if_neg (by rw [hbyte]; simp)]
  refine .cons_always (.each_always fun u hm => hu.string_readIff _ _ (hnames u hm)) ?_
  simp only [hbyte, Nat.sub_self, List.replicate_zero, List.append_nil, List.map_map]
  exact .nil _

/-- The condition under which a function is read back, part by part. -/
theorem FunctionTree.countsFit_node_iff {p : Prototype} {nested : List (FunctionTree Prototype)}
    {depth : Nat} :
    (h.CountFits p.code.length ∧ h.CountFits p.constants.length ∧ h.CountFits nested.length ∧
        (∀ t ∈ nested, t.Every (Prototype.CountsFit h) ∧ t.levels < depth) ∧
        h.CountFits p.lines.length ∧ h.CountFits p.locals.length ∧
        h.CountFits p.upvalues.length) ↔
      (node p nested).Every (Prototype.CountsFit h) ∧ (node p nested).levels < depth + 1 := by
  rw [Nat.lt_succ_iff, levels_node_le]
  constructor
  · rintro ⟨hcode, hconstants, hnested, hbelow, hlines, hlocals, hupvalues⟩
    exact ⟨.node ⟨hcode, hconstants, hnested, hlines, hlocals, hupvalues⟩
      fun t ht => (hbelow t ht).1, fun t ht => (hbelow t ht).2⟩
  · rintro ⟨hall, hlevels⟩
    have here := hall.body
    exact ⟨here.code, here.constants, here.nested,
      fun t ht => ⟨hall.nested t ht, hlevels t ht⟩, here.lines, here.locals, here.upvalues⟩

/-- A tree of functions is read back exactly when the reader accepts every count in it and it is
not nested too deeply. -/
theorem Header.Usable.function_readIff (hu : h.Usable) {t : FunctionTree Prototype}
    (ht : t.Every fun p n => p.Encodable ∧ p.StringsFit h ∧ p.CountsKept h n) (depth : Nat) :
    ReadIff total (Encode.function h t) (Decode.function h total depth)
      (t.map (Prototype.restored h)) (t.Every (Prototype.CountsFit h) ∧ t.levels < depth) := by
  -- The induction is on the tree, with any depth still allowed.
  induction ht generalizing depth with
  | @node p nested here _ ih =>
    obtain ⟨henc, hstr, hkept⟩ := here
    have hsucc : ∀ depth, ReadIff total (Encode.function h (.node p nested))
        (Decode.function h total (depth + 1)) ((FunctionTree.node p nested).map (Prototype.restored h))
        ((FunctionTree.node p nested).Every (Prototype.CountsFit h) ∧
          (FunctionTree.node p nested).levels < depth + 1) := by
      intro depth
      rw [Encode.function_node, Decode.function, FunctionTree.map_node]
      refine .congr ?_ FunctionTree.countsFit_node_iff
      refine .cons_always (hu.string_readIff _ _ hstr.source) ?_
      refine .cons_always (hu.int_readIff _ _) ?_
      refine .cons_always (hu.int_readIff _ _) ?_
      refine .cons_always (byte_readIff _ _) ?_
      refine .cons_always (byte_readIff _ _) ?_
      refine .cons_always (byte_readIff _ _) ?_
      refine .cons_always (byte_readIff _ _) ?_
      refine .cons (hu.count_readIff _ _ hkept.code) ?_
      refine .cons_always (.each_always fun w _ => hu.instruction_readIff w) ?_
      refine .cons (hu.count_readIff _ _ hkept.constants) ?_
      refine .cons_always (.each_always fun k hk =>
        hu.constant_readIff (henc.tags k hk) (hstr.constants k hk)) ?_
      refine .cons (hu.count_readIff _ _ hkept.nested) ?_
      refine .cons (.each fun t hm => ih t hm depth) ?_
      refine .cons (hu.count_readIff _ _ hkept.lines) ?_
      refine .cons_always (.each_always fun v _ => hu.int_readIff _ v) ?_
      refine .cons (hu.count_readIff _ _ hkept.locals) ?_
      refine .cons_always (.each_always fun v hv => hu.localVar_readIff (hstr.locals v hv)) ?_
      exact (hu.upvalues_readIff henc.upvalues hkept.upvalues hstr.upvalues).map _
    cases depth with
    | zero =>
      -- No level is left: the bytes are the same, but nothing is read.
      refine ⟨(hsucc 0).complete, fun _ hP => absurd hP.2 (Nat.not_lt_zero _), ?_⟩
      intro _ _ rest pos
      exact ⟨_, rfl⟩
    | succ depth => exact hsucc depth

/-! ## Chunks -/

theorem Decode.header_encode (hp : h.problem? = none) (rest : Bytes) :
    Decode.header (Encode.header h ++ rest) = .ok (h, rest) := by
  have hintegral : ((if h.integral then 1 else 0 : UInt8) ≠ 0) = (h.integral = true) := by
    cases h.integral <;> simp
  simp only [Encode.header, Encode.signature, List.cons_append, List.nil_append, Decode.header,
    ne_eq, not_true_eq_false, if_false, hintegral, Bool.decide_eq_true, hp]

namespace Chunk

/-- The binary form of a chunk that has one. -/
theorem encode_eq {c : Chunk} (hp : c.header.problem? = none) (hmain : c.main.isAbsent = false)
    (hstop : (Encode.function c.header c.main).stop = none) :
    c.encode = .ok (Encode.header c.header ++ (Encode.function c.header c.main).bytes) := by
  have hrefusal : c.refusal? = none := by
    rw [refusal?, hmain, hp]
    rfl
  rw [encode, hrefusal]
  simp only [append, ofBytes, hstop]

/-- A chunk whose strings can be stored and whose counts are kept has a binary form, which is read
back as the restored chunk when the reader accepts every count and the depth, and is refused
otherwise. -/
theorem encode_readIff {c : Chunk} (hp : c.header.problem? = none)
    (hc : c.main.Every fun p n =>
      p.Encodable ∧ p.StringsFit c.header ∧ p.CountsKept c.header n) :
    ∃ bs, c.encode = .ok bs ∧
      (c.main.Every (Prototype.CountsFit c.header) ∧ c.main.levels ≤ Decode.maxDepth →
        Chunk.decode bs = .ok c.restored) ∧
      (¬ (c.main.Every (Prototype.CountsFit c.header) ∧ c.main.levels ≤ Decode.maxDepth) →
        ∃ problem, Chunk.decode bs = .error problem) := by
  let body := Encode.function c.header c.main
  let total := (Encode.header c.header ++ body.bytes).length
  have hread : ReadIff total body _ _ _ :=
    (Header.usable_of_problem? hp).function_readIff hc (Decode.maxDepth + 1)
  have hle : body.bytes.length ≤ total := by
    simp [total]
  refine ⟨_, encode_eq hp hc.isAbsent hread.complete, fun hfit => ?_, fun hfit => ?_⟩
  · have hd := hread.read hle ⟨hfit.1, Nat.lt_succ_of_le hfit.2⟩ [] Decode.headerSize
    rw [List.append_nil] at hd
    simp only [decode, Decode.header_encode hp]
    rw [hd]
    rfl
  · have hfit' : ¬ (c.main.Every (Prototype.CountsFit c.header) ∧
        c.main.levels < Decode.maxDepth + 1) := fun hfit' =>
      hfit ⟨hfit'.1, Nat.le_of_lt_succ hfit'.2⟩
    obtain ⟨problem, hd⟩ := hread.refuse hle hfit' [] Decode.headerSize
    rw [List.append_nil] at hd
    refine ⟨problem, ?_⟩
    simp only [decode, Decode.header_encode hp]
    rw [hd]

end Chunk

/-! ## Chunks whose values fit -/

/-- The number format of the header represents the number exactly: it is the full format, or
reading what is written for the number gives the number again. -/
def Header.Represents (h : Header) (v : Number) : Prop :=
  (h.integral = false ∧ h.numberSize = 8) ∨
    Decode.number h .numberConstant ⟨(Encode.number h v).bytes, 0⟩ =
      .ok (v, ⟨[], (Encode.number h v).bytes.length⟩)

/-- All values of the function fit the header; `nested` is the number of functions nested in
it. -/
structure Prototype.FitsHeader (h : Header) (p : Prototype) (nested : Nat) : Prop where
  lineDefined : h.IntFits p.lineDefined
  lastLineDefined : h.IntFits p.lastLineDefined
  lines : ∀ v ∈ p.lines, h.IntFits v
  locals : ∀ v ∈ p.locals, h.IntFits v.first ∧ h.IntFits v.last
  words : ∀ w ∈ p.code, w.toNat < 2 ^ (8 * h.instructionSize.toNat)
  counts : p.CountsFit h nested
  strings : p.StringsFit h
  upvalueTotal : p.upvalues.length ≤ 255
  upvalues : ∀ u ∈ p.upvalues, u.index = 0 ∧ u.inStack = false
  constants : ∀ k ∈ p.constants,
    (k.tag = Constant.numberTag ∧ k.string = [] ∧ h.Represents k.number) ∨
      (k.tag = Constant.stringTag ∧ k.number = .zero)

/-- All values of the chunk fit its header, which is usable, and functions are nested at most two
hundred levels deep. -/
structure Chunk.FitsHeader (c : Chunk) : Prop where
  header : c.header.validate = .ok ()
  values : c.main.Every (Prototype.FitsHeader c.header)
  nesting : c.main.levels ≤ 200

theorem Header.Usable.restoredInt_of_fits (hu : h.Usable) {v : Int} (hv : h.IntFits v) :
    h.restoredInt v = v := by
  have hhalf := hu.pow_intSize
  have hcast : ((2 ^ (8 * h.intSize.toNat - 1) : Nat) : Int) = 2 ^ (8 * h.intSize.toNat - 1) := by
    simp
  obtain ⟨hlo, hhi⟩ := hv
  rw [hu.restoredInt_eq]
  exact Int.bmod_eq_of_le (by omega) (by omega)

theorem Header.restoredWord_of_lt {w : Word} (hw : w.toNat < 2 ^ (8 * h.instructionSize.toNat)) :
    h.restoredWord w = w := by
  rw [restoredWord, Sized.pow_256, Nat.mod_eq_of_lt hw, BitVec.ofNat_toNat, BitVec.setWidth_eq]

/-- The full format keeps every number. -/
theorem Header.restoredNumber_double (hfloat : h.integral = false) (hsize : h.numberSize = 8)
    (v : Number) : h.restoredNumber v = v := by
  have hne : ¬ h.numberSize = 4 := by
    rw [hsize]
    decide
  have hcode : Encode.numberCode h v = v.bits.toNat := by
    rw [Encode.numberCode, hfloat, if_neg (by decide), if_neg hne]
  have hlt : v.bits.toNat < 256 ^ h.numberSize.toNat := by
    rw [hsize]
    exact v.bits.isLt
  rw [restoredNumber, hcode, Nat.mod_eq_of_lt hlt, numberOf, hfloat, if_neg (by decide),
    if_neg hne, BitVec.ofNat_toNat, BitVec.setWidth_eq]

/-- A number is represented exactly when it comes back as it is. -/
theorem Header.Usable.represents_iff (hu : h.Usable) (v : Number) :
    h.Represents v ↔ h.restoredNumber v = v := by
  have hnumber : ReadIff (Encode.number h v).bytes.length _ _ _ _ :=
    hu.number_readIff .numberConstant v
  have hread := hnumber.read le_rfl trivial [] 0
  rw [List.append_nil, Nat.zero_add] at hread
  constructor
  · rintro (⟨hfloat, hsize⟩ | hv)
    · exact h.restoredNumber_double hfloat hsize v
    · rw [hv] at hread
      exact (congrArg Prod.fst (Except.ok.inj hread)).symm
  · intro hv
    rw [hv] at hread
    exact .inr hread

theorem Header.Usable.restored_of_fits (hu : h.Usable) {p : Prototype} {nested : Nat}
    (hp : p.FitsHeader h nested) : p.restored h = p := by
  have hcode : p.code.map h.restoredWord = p.code :=
    (List.map_congr_left fun w hw => Header.restoredWord_of_lt (hp.words w hw)).trans (List.map_id' _)
  have hconstants : p.constants.map (Constant.restored h) = p.constants := by
    refine (List.map_congr_left fun k hk => ?_).trans (List.map_id' _)
    obtain ⟨tag, number, string⟩ := k
    rcases hp.constants _ hk with ⟨rfl, rfl, hv⟩ | ⟨rfl, rfl⟩
    · rw [Constant.restored, if_pos rfl, (hu.represents_iff _).1 hv]
      rfl
    · rw [Constant.restored, if_neg (by simp [Constant.stringTag, Constant.numberTag])]
      rfl
  have hlines : p.lines.map h.restoredInt = p.lines :=
    (List.map_congr_left fun v hv => hu.restoredInt_of_fits (hp.lines v hv)).trans (List.map_id' _)
  have hlocals : p.locals.map (LocalVar.restored h) = p.locals := by
    refine (List.map_congr_left fun v hv => ?_).trans (List.map_id' _)
    obtain ⟨hfirst, hlast⟩ := hp.locals v hv
    rw [LocalVar.restored, hu.restoredInt_of_fits hfirst, hu.restoredInt_of_fits hlast]
  have hupvalues : p.upvalues.map Upvalue.restored = p.upvalues := by
    refine (List.map_congr_left fun u hm => ?_).trans (List.map_id' _)
    obtain ⟨hindex, hstack⟩ := hp.upvalues u hm
    rw [Upvalue.restored, ← hindex, ← hstack]
  rw [Prototype.restored, hu.restoredInt_of_fits hp.lineDefined,
    hu.restoredInt_of_fits hp.lastLineDefined, hcode, hconstants, hlines, hlocals, hupvalues]

/-- A chunk whose values fit its header is written, and is read back as it is. -/
theorem Chunk.decode_encode_of_fitsHeader (c : Chunk) (hc : c.FitsHeader) :
    ∃ bs, c.encode = .ok bs ∧ Chunk.decode bs = .ok c := by
  have hp := (Header.problem?_eq_none_iff_validate _).2 hc.header
  have hu := Header.usable_of_problem? hp
  obtain ⟨bs, hbs, hread, -⟩ := encode_readIff hp <| hc.values.imp fun p n hv =>
    ⟨⟨fun k hk => (hv.constants k hk).imp And.left And.left, hv.upvalueTotal⟩, hv.strings,
      hv.counts.kept⟩
  refine ⟨bs, hbs, ?_⟩
  rw [hread ⟨hc.values.imp fun p n hv => hv.counts, hc.nesting⟩, restored,
    hc.values.map_eq_self fun p n hv => hu.restored_of_fits hv]

/-- A chunk whose header declares narrow integers and numbers, with values at the ends of their
ranges. -/
def exactChunk : Chunk where
  header := ⟨0, 0, 2, 1, 8, 4, false⟩
  main := .node
    { source := utf8 "@x", lineDefined := -32768, lastLineDefined := 32767, numParams := 0,
      isVararg := 2, maxStackSize := 2, code := [0xFFFFFFFF, 0x0080001E],
      constants := [.ofNumber ⟨0x3FE0000000000000⟩, .ofString [0x00, 0xFF]], lines := [1, -1],
      locals := [⟨utf8 "a", 0, 2⟩], upvalues := [] }
    [ .node
        { source := [], lineDefined := 1, lastLineDefined := 2, numParams := 0, isVararg := 0,
          maxStackSize := 1, code := [], constants := [], lines := [], locals := [],
          upvalues := [⟨utf8 "a", 0, false⟩] }
        [] ]

theorem decode_encode_exactChunk :
    exactChunk.FitsHeader ∧
      ∃ bs, exactChunk.encode = .ok bs ∧ Chunk.decode bs = .ok exactChunk := by
  have hvalid : exactChunk.header.validate = .ok () := by decide
  have hu := Header.usable_of_problem? ((Header.problem?_eq_none_iff_validate _).2 hvalid)
  have hhalf : exactChunk.header.Represents ⟨0x3FE0000000000000⟩ :=
    (hu.represents_iff _).2 (by decide +kernel)
  have hfits : exactChunk.FitsHeader := by
    refine ⟨hvalid, .node ?_ (List.forall_mem_singleton.2 (.node ?_ (by simp))), by decide⟩
    · exact
        { lineDefined := by decide
          lastLineDefined := by decide
          lines := by decide
          locals := by decide
          words := fun w _ => w.isLt.trans (by decide)
          counts := by decide
          strings := by decide +kernel
          upvalueTotal := by decide
          upvalues := by decide
          constants := List.forall_mem_cons.2 ⟨.inl ⟨rfl, rfl, hhalf⟩,
            List.forall_mem_singleton.2 (.inr ⟨rfl, rfl⟩)⟩ }
    · exact
        { lineDefined := by decide
          lastLineDefined := by decide
          lines := by decide
          locals := by decide
          words := by simp
          counts := by decide
          strings := by decide +kernel
          upvalueTotal := by decide
          upvalues := by decide
          constants := by simp }
  exact ⟨hfits, exactChunk.decode_encode_of_fitsHeader hfits⟩

end LuaAssembly
