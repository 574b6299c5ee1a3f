import Mathlib
import LuaAssembly.Proofs.Bytes.Numeral
import LuaAssembly.Proofs.Document.ReadBack
import LuaAssembly.Proofs.Source.Lexing

/-!
# Exporting and importing chunks

A document that was made from a chunk has strings of its own besides those of the chunk: paths,
mnemonics and instructions in source form.  They are all ASCII, so whether the document is read
back depends on the strings of the chunk alone.  Both strings of the chunk that count and those
that do not are exported: a number constant may carry a string, too.
-/
namespace LuaAssembly

/-! ## ASCII text -/

namespace Utf8

/-- All bytes are ASCII. -/
def Ascii (bs : Bytes) : Prop :=
  ∀ b ∈ bs, IsAscii b

instance (bs : Bytes) : Decidable (Ascii bs) :=
  inferInstanceAs (Decidable (∀ b ∈ bs, IsAscii b))

theorem Ascii.append {xs ys : Bytes} (hx : Ascii xs) (hy : Ascii ys) : Ascii (xs ++ ys) :=
  List.forall_mem_append.2 ⟨hx, hy⟩

theorem Ascii.isValid {bs : Bytes} (h : Ascii bs) : isValid bs = true := by
  simpa [isValid_nil] using isValid_append_of_isAscii h []

theorem ascii_utf8 {s : String} (h : (s.toList.all fun c => Nat.ble c.toNat 0x7F) = true) :
    Ascii (utf8 s) := by
  rw [List.all_eq_true] at h
  intro b hb
  obtain ⟨c, hc, hb⟩ := List.mem_flatMap.1 hb
  have hle : c.toNat ≤ 0x7F := Nat.le_of_ble_eq_true (h c hc)
  rw [utf8EncodeChar_of_le hle, List.mem_singleton] at hb
  rw [hb, IsAscii, UInt8.lt_iff_toNat_lt, UInt8.toNat_ofNat']
  exact (Nat.mod_le ..).trans_lt (hle.trans_lt (by decide))

theorem ascii_of_digits {bs : Bytes} (h : Numeral.Digits bs) : Ascii bs := by
  intro b hb
  have hdigit := (Numeral.isDigit_iff.1 (h b hb)).2
  rw [IsAscii, UInt8.lt_iff_toNat_lt]
  exact hdigit.trans_lt (by decide)

theorem ascii_ofNat (n : Nat) : Ascii (Numeral.ofNat n) :=
  ascii_of_digits (Numeral.ofNat_spec n).1

theorem ascii_ofInt (v : Int) : Ascii (Numeral.ofInt v) := by
  cases v with
  | ofNat n => exact ascii_ofNat n
  | negSucc n => exact List.forall_mem_cons.2 ⟨by decide, ascii_ofNat (n + 1)⟩

theorem ascii_hexUpper (width n : Nat) : Ascii (Numeral.hexUpper width n) := by
  have hdigit : ∀ v < 16, IsAscii (if 0x61 ≤ Numeral.digit v then Numeral.digit v - 0x20
      else Numeral.digit v) := by decide +kernel
  intro b hb
  obtain ⟨c, hc, rfl⟩ := List.mem_map.1 hb
  obtain ⟨v, hv, rfl⟩ := Numeral.exists_digit_of_mem_fixed (by decide) hc
  exact hdigit v hv

theorem ascii_mnemonic (op : Opcode) : Ascii op.mnemonic := by
  cases op <;> exact ascii_utf8 (by decide +kernel)

theorem ascii_nameOfNumber (n : Nat) : Ascii (Opcode.nameOfNumber n) := by
  rw [Opcode.nameOfNumber]
  cases Opcode.ofNumber? n with
  | some op => exact ascii_mnemonic op
  | none =>
    exact ((ascii_utf8 (by decide +kernel)).append (ascii_ofNat n)).append
      (ascii_utf8 (by decide +kernel))

theorem ascii_operandText (w : Word) (f : OperandFormat) : Ascii (w.operandText f) := by
  have hr : Ascii (utf8 "r") := ascii_utf8 (by decide +kernel)
  have hk : Ascii (utf8 "k") := ascii_utf8 (by decide +kernel)
  rw [Word.operandText]
  refine Ascii.append ?_ (ascii_ofInt _)
  cases f.spelling with
  | plain => exact nofun
  | signed => exact nofun
  | register => exact hr
  | constant => exact hk
  | either =>
    dsimp only
    split_ifs
    · exact hk
    · exact hr

theorem ascii_text (w : Word) : Ascii w.text := by
  rw [Word.text]
  cases w.opcode? with
  | some op =>
    refine (ascii_mnemonic op).append fun b hb => ?_
    obtain ⟨f, -, hb⟩ := List.mem_flatMap.1 hb
    exact (ascii_utf8 (by decide +kernel)).append (ascii_operandText w f) b hb
  | none => exact (ascii_utf8 (by decide +kernel)).append (ascii_hexUpper 8 _)

theorem ascii_childPath {path : Bytes} (h : Ascii path) (i : Nat) :
    Ascii (FunctionTree.childPath path i) :=
  (h.append (ascii_utf8 (by decide +kernel))).append (ascii_ofNat i)

end Utf8

/-! ## Trees with paths -/

namespace FunctionTree

variable {α β γ : Type} {f : Bytes → α → β}

theorem convert?_node_eq_some {path : Bytes} {body : α} {nested : List (FunctionTree α)}
    {u : FunctionTree β} : convert? f path (.node body nested) = some u ↔
      ∃ us, convertAll? f path 0 nested = some us ∧ u = .node (f path body) us := by
  rw [convert?, Option.map_eq_some_iff]
  simp only [eq_comm]

theorem convertAll?_cons_eq_some {path : Bytes} {i : Nat} {t : FunctionTree α}
    {ts : List (FunctionTree α)} {us : List (FunctionTree β)} :
    convertAll? f path i (t :: ts) = some us ↔ ∃ u us', convert? f (childPath path i) t = some u ∧
      convertAll? f path (i + 1) ts = some us' ∧ us = u :: us' := by
  rw [convertAll?]
  cases convert? f (childPath path i) t with
  | none => simp
  | some u =>
    cases convertAll? f path (i + 1) ts with
    | none => simp
    | some us' => simp [eq_comm]

mutual

/-- A change that does not look at what the path was used for is one of the original tree. -/
theorem map_of_convert? {g : β → γ} {h : α → γ} (hg : ∀ path b, g (f path b) = h b) :
    (t : FunctionTree α) → {path : Bytes} → {u : FunctionTree β} →
    t.convert? f path = some u → u.map g = t.map h
  | .absent, _, _, hu => by cases hu
  | .node body nested, path, u, hu => by
    obtain ⟨us, hus, rfl⟩ := convert?_node_eq_some.1 hu
    rw [map, map, hg, mapAll_of_convertAll? hg nested hus]

theorem mapAll_of_convertAll? {g : β → γ} {h : α → γ} (hg : ∀ path b, g (f path b) = h b) :
    (ts : List (FunctionTree α)) → {path : Bytes} → {i : Nat} → {us : List (FunctionTree β)} →
    convertAll? f path i ts = some us → mapAll g us = mapAll h ts
  | [], _, _, _, hus => by
    cases hus
    rfl
  | t :: ts, path, i, us, hus => by
    obtain ⟨u, us', hu, hus', rfl⟩ := convertAll?_cons_eq_some.1 hus
    rw [mapAll, mapAll, map_of_convert? hg t hu, mapAll_of_convertAll? hg ts hus']

end

/-- What holds of every path and every function holds of what is made of them. -/
theorem Every.convert? {Q : Bytes → Prop} {P : α → Prop} {R : β → Prop}
    (hQ : ∀ path i, Q path → Q (childPath path i)) (hf : ∀ path b, Q path → P b → R (f path b))
    {t : FunctionTree α} (ht : t.Every fun b _ => P b) {path : Bytes} (hpath : Q path)
    {u : FunctionTree β} (hu : t.convert? f path = some u) : u.Every fun b _ => R b := by
  induction ht generalizing path u with
  | @node body nested here _ ih =>
    obtain ⟨us, hus, rfl⟩ := convert?_node_eq_some.1 hu
    refine .node (hf _ _ hpath here) ?_
    -- The places from `i` on, so that the induction over the nested functions goes through.
    have hall : ∀ (ts : List (FunctionTree α)) (i : Nat) (us : List (FunctionTree β)),
        (∀ t ∈ ts, t ∈ nested) → convertAll? f path i ts = some us →
        ∀ u ∈ us, u.Every fun b _ => R b := by
      intro ts
      induction ts with
      | nil =>
        intro i us _ hus
        cases hus
        exact nofun
      | cons t ts ihs =>
        intro i us hts hus
        rw [List.forall_mem_cons] at hts
        obtain ⟨u, us', hu, hus', rfl⟩ := convertAll?_cons_eq_some.1 hus
        exact List.forall_mem_cons.2 ⟨ih t hts.1 (hQ _ _ hpath) hu, ihs (i + 1) us' hts.2 hus'⟩
    exact hall nested 0 us (fun _ ht => ht) hus

/-- A tree in which no place is empty is made of another one. -/
theorem Every.convert?_full {t : FunctionTree α} (ht : t.Every fun _ _ => True) {path : Bytes}
    {u : FunctionTree β} (hu : t.convert? f path = some u) : u.Every fun _ _ => True :=
  ht.convert? (Q := fun _ => True) (P := fun _ => True) (R := fun _ => True) (fun _ _ h => h)
    (fun _ _ _ h => h) trivial hu

end FunctionTree

/-! ## Documents of chunks -/

/-- Every string of the function is valid UTF-8. -/
@[mk_iff]
structure Prototype.IsText (p : Prototype) : Prop where
  source : Utf8.isValid p.source = true
  constants : ∀ k ∈ p.constants, Utf8.isValid k.string = true
  locals : ∀ v ∈ p.locals, Utf8.isValid v.name = true
  upvalues : ∀ u ∈ p.upvalues, Utf8.isValid u.name = true

instance (p : Prototype) : Decidable p.IsText :=
  decidable_of_iff _ p.isText_iff.symm

/-- The numbers of all constants, also of those that are none, satisfy `P`. -/
def Prototype.Numbers (P : Number → Prop) (p : Prototype) : Prop :=
  ∀ k ∈ p.constants, P k.number

instance {P : Number → Prop} [DecidablePred P] (p : Prototype) : Decidable (p.Numbers P) :=
  inferInstanceAs (Decidable (∀ k ∈ p.constants, P k.number))

theorem Digest.length_sha256 (message : Bytes) :
    (Digest.sha256 message).length = Import.digestLength := rfl

namespace Number

/-- Negative zero. -/
def negativeZero : Number := .ofCode true 0

theorem eq_zero_of_isZero {v : Number} (hzero : v.isZero = true) (hv : v ≠ negativeZero) :
    v = zero := by
  have hcode := v.ofCode_self
  rw [of_decide_eq_true hzero] at hcode
  cases hsign : v.isNegative with
  | true =>
    rw [hsign] at hcode
    exact absurd hcode.symm hv
  | false =>
    rw [hsign] at hcode
    exact hcode.symm

/-- A number comes back unless it is negative zero. -/
theorem imported_eq_self_iff {v : Number} (hnan : v.isNaN = false) :
    v.imported = v ↔ v ≠ negativeZero := by
  constructor
  · rintro himported rfl
    exact absurd himported (by decide +kernel)
  · intro hv
    rw [imported, settled, hnan, if_neg Bool.false_ne_true, unsignedZero]
    split_ifs with hzero
    · exact (eq_zero_of_isZero hzero hv).symm
    · rfl

end Number

namespace Document

variable {c : Chunk} {d : Document}

theorem ofChunk_eq_ok (h : ofChunk c = .ok d) : ∃ binary, c.encode = .ok binary ∧
    c.main.convert? DocumentFunction.ofPrototype mainPath = some d.main ∧
    d.digest = Digest.sha256 binary ∧ d.header = .ofHeader c.header := by
  rw [ofChunk] at h
  cases hbinary : c.encode with
  | error p =>
    rw [hbinary] at h
    cases h
  | ok binary =>
    cases hmain : c.main.convert? DocumentFunction.ofPrototype mainPath with
    | none =>
      rw [hbinary, hmain] at h
      cases h
    | some main =>
      rw [hbinary, hmain] at h
      cases h
      exact ⟨binary, rfl, rfl, rfl, rfl⟩

theorem ascii_nameOfTag (tag : UInt8) : Utf8.Ascii (ByteOrder.nameOfTag tag) := by
  rw [ByteOrder.nameOfTag]
  cases ByteOrder.ofTag? tag with
  | some order =>
    have hnames : ∀ order : ByteOrder, Utf8.Ascii order.name := by
      intro order
      cases order <;> exact Utf8.ascii_utf8 (by decide +kernel)
    exact hnames order
  | none =>
    exact ((Utf8.ascii_utf8 (by decide +kernel)).append (Utf8.ascii_ofNat _)).append
      (Utf8.ascii_utf8 (by decide +kernel))

/-- The text of the document is valid when that of the chunk is. -/
theorem isText_of_ofChunk (h : ofChunk c = .ok d) (hc : c.main.Every fun p _ => p.IsText) :
    d.IsText := by
  obtain ⟨binary, -, hmain, -, hheader⟩ := ofChunk_eq_ok h
  constructor
  · rw [hheader]
    exact (ascii_nameOfTag _).isValid
  · refine hc.convert? (Q := Utf8.Ascii) (fun _ i => (Utf8.ascii_childPath · i)) ?_
      (Utf8.ascii_utf8 (by decide +kernel)) hmain
    intro path p hpath hp
    refine ⟨hpath.isValid, hp.source, ?_, hp.constants, hp.locals, hp.upvalues⟩
    intro i hi
    obtain ⟨w, -, rfl⟩ := List.mem_map.1 hi
    exact ⟨(Utf8.ascii_nameOfNumber _).isValid, (Utf8.ascii_text w).isValid⟩

theorem mapConstants_imported_eq_self (h : ofChunk c = .ok d)
    (hc : c.main.Every fun p _ => p.Numbers fun v => v.isNaN = false ∧ v ≠ .negativeZero) :
    d.mapConstants (·.mapNumber Number.imported) = d := by
  obtain ⟨binary, -, hmain, -, -⟩ := ofChunk_eq_ok h
  have hnumbers : d.main.Every fun f _ =>
      ∀ k ∈ f.constants, k.number.isNaN = false ∧ k.number ≠ .negativeZero :=
    hc.convert? (f := DocumentFunction.ofPrototype) (Q := fun _ => True) (fun _ _ h => h)
      (fun _ _ _ hp => hp) trivial hmain
  have hself : d.main.map (·.mapConstants (·.mapNumber Number.imported)) = d.main := by
    refine hnumbers.map_eq_self fun f _ hf => ?_
    have hconstants : f.constants.map (·.mapNumber Number.imported) = f.constants := by
      refine (List.map_congr_left fun k hk => ?_).trans (List.map_id _)
      rw [Constant.mapNumber, (Number.imported_eq_self_iff (hf k hk).1).2 (hf k hk).2, id]
    rw [DocumentFunction.mapConstants, hconstants]
  rw [mapConstants, hself]

/-- A chunk is exported and imported without loss.  The document that is read back is the document
that was written, when all strings of the chunk are valid, all numbers are numbers other than
negative zero, and the document is within the limits of the reader. -/
theorem decode_document (hd : ofChunk c = .ok d) (hmemory : d.InMemory)
    (htext : c.main.Every fun p _ => p.IsText)
    (hnumbers : c.main.Every fun p _ => p.Numbers fun v => v.isNaN = false ∧ v ≠ .negativeZero)
    (hlimits : d.toItem.Within Cbor.maxLevels) :
    ∃ bytes, c.document = .ok bytes ∧ decode bytes = .ok d := by
  obtain ⟨binary, -, -, hdigest, -⟩ := ofChunk_eq_ok hd
  have hlength : d.digest.length = Import.digestLength := by
    rw [hdigest, Digest.length_sha256]
  refine ⟨d.encode, by rw [Chunk.document, hd]; rfl, ?_⟩
  rw [decode_encode_eq_ok_iff hmemory hlength, mapConstants_imported_eq_self hd hnumbers]
  exact ⟨⟨hlimits, isText_of_ofChunk hd htext⟩, rfl⟩

/-- A chunk with a nested function and the given constants. -/
def exportedChunk (constants : List Constant) : Chunk where
  header := ⟨0, 1, 4, 4, 4, 8, false⟩
  main := .node
    { source := utf8 "@t.lua", lineDefined := 0, lastLineDefined := -1, numParams := 0,
      isVararg := 2, maxStackSize := 2, code := [0x00004001, 0xFFFFFFFF], constants,
      lines := [1, 5], locals := [⟨utf8 "x", 0, 3⟩], upvalues := [] }
    [ .node
        { source := [], lineDefined := 2, lastLineDefined := 4, numParams := 1, isVararg := 0,
          maxStackSize := 2, code := [], constants := [], lines := [], locals := [],
          upvalues := [⟨utf8 "up", 7, true⟩] }
        [] ]

theorem decode_document_exportedChunk :
    ∃ d bytes, ofChunk (exportedChunk [.ofNumber ⟨0x4045000000000000⟩, .ofString (utf8 "é")]) =
        .ok d ∧ d.InMemory ∧ d.toItem.Within Cbor.maxLevels ∧
      (exportedChunk [.ofNumber ⟨0x4045000000000000⟩, .ofString (utf8 "é")]).document =
        .ok bytes ∧ decode bytes = .ok d := by
  obtain ⟨d, hd, hmemory, hlimits⟩ : ∃ d, ofChunk (exportedChunk
      [.ofNumber ⟨0x4045000000000000⟩, .ofString (utf8 "é")]) = .ok d ∧ d.InMemory ∧
      d.toItem.Within Cbor.maxLevels :=
    ⟨_, rfl, ⟨by decide, by decide +kernel, by decide +kernel⟩, by decide +kernel⟩
  obtain ⟨bytes, hbytes, hdecode⟩ :=
    decode_document hd hmemory (by decide +kernel) (by decide +kernel) hlimits
  exact ⟨d, bytes, hd, hmemory, hlimits, hbytes, hdecode⟩

/-- A number constant that carries a string, which is not valid. -/
def strayConstant : Constant :=
  ⟨Constant.numberTag, ⟨0x4045000000000000⟩, [0xFF]⟩

/-- It is not enough that the strings of string constants are valid. -/
theorem not_decode_document_strayConstant :
    ∃ d, ofChunk (exportedChunk [strayConstant]) = .ok d ∧ d.InMemory ∧
      (exportedChunk [strayConstant]).main.Every (fun p _ =>
        Utf8.isValid p.source = true ∧
        (∀ k ∈ p.constants, k.tag = Constant.stringTag → Utf8.isValid k.string = true) ∧
        (∀ v ∈ p.locals, Utf8.isValid v.name = true) ∧
        (∀ u ∈ p.upvalues, Utf8.isValid u.name = true) ∧
        p.Numbers fun v => v.isNaN = false ∧ v ≠ .negativeZero) ∧
      d.toItem.Within Cbor.maxLevels ∧
      (exportedChunk [strayConstant]).document = .ok d.encode ∧
      decode d.encode = .error .unreadable := by
  obtain ⟨d, hd, hmemory, hlimits, hinvalid⟩ : ∃ d,
      ofChunk (exportedChunk [strayConstant]) = .ok d ∧ d.InMemory ∧
      d.toItem.Within Cbor.maxLevels ∧
      ¬d.main.Every fun f _ => f.Strings (Utf8.isValid · = true) :=
    ⟨_, rfl, ⟨by decide, by decide +kernel, by decide +kernel⟩, by decide +kernel,
      by decide +kernel⟩
  refine ⟨d, hd, hmemory, by decide +kernel, hlimits, by rw [Chunk.document, hd]; rfl, ?_⟩
  obtain ⟨binary, -, -, hdigest, -⟩ := ofChunk_eq_ok hd
  cases hdecode : decode d.encode with
  | ok e =>
    have hread := (decode_encode_eq_ok_iff hmemory (hdigest ▸ Digest.length_sha256 _)).1 hdecode
    exact absurd hread.1.2.main hinvalid
  | error p => rfl

end Document

end LuaAssembly
