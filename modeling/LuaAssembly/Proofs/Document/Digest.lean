import Mathlib
import LuaAssembly.Proofs.Chunk.Layout
import LuaAssembly.Proofs.Chunk.Stability
import LuaAssembly.Proofs.Document.RoundTrip

/-!
# The digest of a document

A document carries the digest of the binary chunk that it was made from.  The chunk that a document
is turned back into has the same binary form, and so the same digest, exactly when none of the
numbers of the chunk was changed on the way.  Two binary forms with parts of the same lengths are
compared part by part: `AgreeIff` says when they are the same.
-/
namespace LuaAssembly

/-! ## Comparing binary forms -/

namespace Emission

/-- Two things of the same length are written; up to the end, they are the same exactly when `P`
holds. -/
structure AgreeIff (x y : Emission) (P : Prop) : Prop where
  stop : x.stop = y.stop
  length : x.bytes.length = y.bytes.length
  bytes_iff : x.stop = none → (x.bytes = y.bytes ↔ P)

namespace AgreeIff

variable {α : Type} {x y x' y' : Emission} {P Q : Prop}

theorem refl (x : Emission) : AgreeIff x x True :=
  ⟨rfl, rfl, fun _ => by simp⟩

theorem congr (h : AgreeIff x y P) (hPQ : P ↔ Q) : AgreeIff x y Q :=
  propext hPQ ▸ h

theorem append (h : AgreeIff x y P) (h' : AgreeIff x' y' Q) :
    AgreeIff (x.append x') (y.append y') (P ∧ Q) := by
  cases hx : x.stop with
  | some u =>
    -- Nothing more is written after a stop.
    have hy : y.stop = some u := h.stop ▸ hx
    simp only [Emission.append, hx, hy]
    exact ⟨h.stop, h.length, fun hnone => absurd (hx.symm.trans hnone) (Option.some_ne_none u)⟩
  | none =>
    have hy : y.stop = none := h.stop ▸ hx
    refine ⟨?_, ?_, fun hstop => ?_⟩
    · rw [append_stop hx, append_stop hy, h'.stop]
    · rw [append_bytes hx, append_bytes hy, List.length_append, List.length_append, h.length,
        h'.length]
    · rw [append_stop hx] at hstop
      rw [append_bytes hx, append_bytes hy, ← h.bytes_iff hx, ← h'.bytes_iff hstop]
      exact ⟨fun heq => List.append_inj heq h.length, fun heq => by rw [heq.1, heq.2]⟩

/-- What is the same in both does not count. -/
theorem after (x : Emission) (h : AgreeIff x' y' P) : AgreeIff (x.append x') (x.append y') P :=
  ((refl x).append h).congr (iff_of_eq (true_and P))

theorem each {f : α → Emission} {g : α → α} {P : α → Prop} {xs : List α}
    (h : ∀ a ∈ xs, AgreeIff (f (g a)) (f a) (P a)) :
    AgreeIff (each f (xs.map g)) (each f xs) (∀ a ∈ xs, P a) := by
  induction xs with
  | nil => exact (refl _).congr (by simp)
  | cons a xs ih =>
    rw [List.forall_mem_cons] at h
    rw [List.map_cons, each_cons, each_cons]
    exact (h.1.append (ih h.2)).congr (by rw [List.forall_mem_cons])

end AgreeIff

end Emission

open Emission

namespace Prototype

/-- The function with other constants. -/
def mapConstants (g : Constant → Constant) (p : Prototype) : Prototype :=
  { p with constants := p.constants.map g }

/-- The number constants of the function are not changed by `g`. -/
def Keeps (g : Number → Number) (p : Prototype) : Prop :=
  ∀ k ∈ p.constants, k.tag = Constant.numberTag → g k.number = k.number

end Prototype

namespace Encode

variable {h : Header}

/-- Values of declared width are written in the same way when their low bytes are the same. -/
theorem agreeIff_sized (size : UInt8) (x y : Nat) :
    AgreeIff (sized h size x) (sized h size y)
      (x % 256 ^ size.toNat = y % 256 ^ size.toNat) := by
  rw [sized, sized]
  cases ByteOrder.ofTag? h.endianness with
  | none => exact ⟨rfl, rfl, fun hstop => by cases hstop⟩
  | some order =>
    refine ⟨rfl, ?_, fun _ => ⟨fun heq => ?_, fun heq => ?_⟩⟩
    · exact (Sized.length_write ..).trans (Sized.length_write ..).symm
    · have hwrite : Sized.write order size.toNat x = Sized.write order size.toNat y := heq
      rw [← Sized.read_write order size.toNat x, hwrite, Sized.read_write]
    · change Sized.write order size.toNat x = Sized.write order size.toNat y
      rw [← Sized.write_mod, heq, Sized.write_mod]

variable {g : Number → Number}

/-- A number that is stored with all of its bits. -/
theorem agreeIff_number (hfloat : h.integral = false) (hsize : h.numberSize = 8) (v w : Number) :
    AgreeIff (number h v) (number h w) (v = w) := by
  have hcode : ∀ v, numberCode h v = v.bits.toNat := by
    intro v
    rw [numberCode, hfloat, if_neg Bool.false_ne_true, hsize, if_neg (by decide)]
  have hlt : ∀ v : Number, v.bits.toNat < 256 ^ h.numberSize.toNat := by
    intro v
    rw [hsize]
    exact v.bits.isLt
  rw [number, number, hcode, hcode]
  refine (agreeIff_sized _ _ _).congr ?_
  rw [Nat.mod_eq_of_lt (hlt v), Nat.mod_eq_of_lt (hlt w), BitVec.toNat_inj]
  exact ⟨congrArg Number.mk, congrArg Number.bits⟩

/-- A constant with another number. -/
theorem agreeIff_constant (hfloat : h.integral = false) (hsize : h.numberSize = 8)
    (k : Constant) : AgreeIff (constant h (k.mapNumber g)) (constant h k)
      (k.tag = Constant.numberTag → g k.number = k.number) := by
  rw [constant, constant, Constant.mapNumber]
  refine AgreeIff.after _ ?_
  by_cases htag : k.tag = Constant.numberTag
  · simp only [htag, if_true, true_implies]
    exact agreeIff_number hfloat hsize _ _
  · simp only [htag, if_false, false_implies]
    exact .refl _

theorem agreeIff_function (hfloat : h.integral = false) (hsize : h.numberSize = 8)
    {t : FunctionTree Prototype} (ht : t.Every fun _ _ => True) :
    AgreeIff (function h (t.map (·.mapConstants (·.mapNumber g)))) (function h t)
      (t.Every fun p _ => p.Keeps g) := by
  induction ht with
  | @node p nested _ _ ih =>
    have hprologue : AgreeIff (prologue h (p.mapConstants (·.mapNumber g))) (prologue h p)
        (p.Keeps g) := by
      have hconstants := AgreeIff.each fun k (_ : k ∈ p.constants) =>
        agreeIff_constant (g := g) hfloat hsize k
      simp only [prologue, Prototype.mapConstants, concat_cons, concat_nil, append_ofBytes_nil,
        count_map]
      exact .after _ <| .after _ <| .after _ <| .after _ <| .after _ <| .after _ <|
        .after _ hconstants
    have hnested := AgreeIff.each ih
    rw [FunctionTree.map_node, function, function, functions_eq_each, functions_eq_each, count_map,
      FunctionTree.Every.node_iff]
    simp only [concat_cons, concat_nil, append_ofBytes_nil]
    refine (hprologue.append (.after _ (hnested.append (.refl _)))).congr ?_
    rw [and_true]

end Encode

namespace Chunk

variable {c : Chunk} {binary : Bytes}

theorem of_encode_eq_ok (h : c.encode = .ok binary) :
    c.header.problem? = none ∧ c.main.isAbsent = false ∧
      (Encode.function c.header c.main).stop = none ∧
      binary = Encode.header c.header ++ (Encode.function c.header c.main).bytes := by
  rw [encode] at h
  cases hrefusal : c.refusal? with
  | some p =>
    rw [hrefusal] at h
    cases h
  | none =>
    have hparts := hrefusal
    rw [refusal?, ite_eq_iff] at hparts
    obtain ⟨-, hnone⟩ | ⟨hmain, hproblem⟩ := hparts
    · cases hnone
    · have hmain : c.main.isAbsent = false := by simpa using hmain
      have hproblem : c.header.problem? = none := by simpa using hproblem
      cases hstop : (Encode.function c.header c.main).stop with
      | some u =>
        simp only [hrefusal, Emission.append, ofBytes, hstop] at h
        cases h
      | none =>
        simp only [hrefusal, Emission.append, ofBytes, hstop, Except.ok.injEq] at h
        exact ⟨hproblem, hmain, rfl, h.symm⟩

/-- A chunk whose numbers are changed keeps its binary form exactly when the numbers of its number
constants are not changed. -/
theorem encode_mapNumber_iff {g : Number → Number} (hfloat : c.header.integral = false)
    (hsize : c.header.numberSize = 8) (hmain : c.main.Every fun _ _ => True)
    (hc : c.encode = .ok binary) :
    (⟨c.header, c.main.map (·.mapConstants (·.mapNumber g))⟩ : Chunk).encode = .ok binary ↔
      c.main.Every fun p _ => p.Keeps g := by
  obtain ⟨hproblem, -, hstop, rfl⟩ := of_encode_eq_ok hc
  have hagree := Encode.agreeIff_function (g := g) hfloat hsize hmain
  have hmapped : (c.main.map (·.mapConstants (·.mapNumber g))).Every fun _ _ => True :=
    hmain.map fun _ _ _ => trivial
  have hencode := encode_eq (c := ⟨c.header, c.main.map (·.mapConstants (·.mapNumber g))⟩)
    hproblem hmapped.isAbsent (hagree.stop.trans hstop)
  rw [hencode, Except.ok.injEq, List.append_cancel_left_eq]
  exact hagree.bytes_iff (hagree.stop.trans hstop)

end Chunk

theorem ByteOrder.tag_of_ofTag? {tag : UInt8} {order : ByteOrder}
    (h : ByteOrder.ofTag? tag = some order) : order.tag = tag := by
  rw [ByteOrder.ofTag?] at h
  split_ifs at h with hbig hlittle <;> cases h
  · exact hbig.symm
  · exact hlittle.symm

theorem DocumentFunction.toPrototype_ofPrototype (path : Bytes) (p : Prototype) :
    (DocumentFunction.ofPrototype path p).toPrototype = p := by
  have hcode : (p.code.map DocumentInstruction.ofWord).map (·.word) = p.code := by
    rw [List.map_map]
    exact List.map_id _
  simp only [toPrototype, ofPrototype, hcode]

namespace Document

variable {c c' : Chunk} {d e : Document}

theorem toPrototype_mapConstants (g : Constant → Constant) (path : Bytes) (p : Prototype) :
    ((DocumentFunction.ofPrototype path p).mapConstants g).toPrototype = p.mapConstants g :=
  congrArg (·.mapConstants g) (DocumentFunction.toPrototype_ofPrototype path p)

/-- The byte order of a chunk can be told from the header of its document. -/
theorem exists_byteOrder (hd : ofChunk c = .ok d) : ∃ order,
    ByteOrder.ofName? d.header.endianness = some order ∧ order.tag = c.header.endianness := by
  obtain ⟨binary, hencode, -, -, hheader⟩ := ofChunk_eq_ok hd
  obtain ⟨hproblem, -, -, -⟩ := Chunk.of_encode_eq_ok hencode
  obtain ⟨order, horder⟩ := (Header.usable_of_problem? hproblem).order
  refine ⟨order, ?_, ByteOrder.tag_of_ofTag? horder⟩
  rw [hheader, show (DocumentHeader.ofHeader c.header).endianness =
    ByteOrder.nameOfTag c.header.endianness from rfl, ByteOrder.nameOfTag, horder]
  exact ByteOrder.ofName?_name order

/-- The chunk that comes back from a document differs from the original in its numbers alone. -/
theorem toChunk_eq (hevery : c.main.Every fun _ _ => True) (hd : ofChunk c = .ok d)
    (hc' : (d.mapConstants (·.mapNumber Number.imported)).toChunk = .ok c') :
    c' = ⟨c.header, c.main.map (·.mapConstants (·.mapNumber Number.imported))⟩ := by
  obtain ⟨-, -, hmain, -, hheader⟩ := ofChunk_eq_ok hd
  obtain ⟨order, hname, htag⟩ := exists_byteOrder hd
  rw [toChunk, show (d.mapConstants (·.mapNumber Number.imported)).header = d.header from rfl,
    hname] at hc'
  split_ifs at hc'
  cases hback : (d.mapConstants (·.mapNumber Number.imported)).main.convert?
    (fun _ f => f.toPrototype) mainPath with
  | none =>
    rw [hback] at hc'
    cases hc'
  | some main =>
    have hmain' : main = c.main.map (·.mapConstants (·.mapNumber Number.imported)) := by
      have hfull : (d.mapConstants (·.mapNumber Number.imported)).main.Every fun _ _ => True :=
        (hevery.convert?_full hmain).map fun _ _ h => h
      calc
        main = main.map id := ((hfull.convert?_full hback).map_eq_self fun _ _ _ => rfl).symm
        _ = (d.main.map (·.mapConstants (·.mapNumber Number.imported))).map (·.toPrototype) :=
          FunctionTree.map_of_convert? (f := fun _ f => f.toPrototype) (g := id) (fun _ _ => rfl) _
            hback
        _ = d.main.map fun f => (f.mapConstants (·.mapNumber Number.imported)).toPrototype :=
          FunctionTree.map_map ..
        _ = c.main.map (·.mapConstants (·.mapNumber Number.imported)) :=
          FunctionTree.map_of_convert? (f := .ofPrototype) (toPrototype_mapConstants _) _ hmain
    rw [hback] at hc'
    cases hc'
    rw [hmain', hheader, htag]
    rfl

/-- The digest of a document identifies the chunk that the document is turned back into, unless a
number was changed on the way: a number constant that is negative zero comes back as zero. -/
theorem encode_toChunk_iff {c c' : Chunk} {d e : Document} (hfloat : c.header.integral = false)
    (hsize : c.header.numberSize = 8)
    (hnan : c.main.Every fun p _ =>
      ∀ k ∈ p.constants, k.tag = Constant.numberTag → k.number.isNaN = false)
    (hd : ofChunk c = .ok d) (hmemory : d.InMemory) (he : decode d.encode = .ok e)
    (hc' : e.toChunk = .ok c') :
    ∃ binary, c.encode = .ok binary ∧ e.digest = Digest.sha256 binary ∧
      (c'.encode = .ok binary ↔ c.main.Every fun p _ =>
        ∀ k ∈ p.constants, k.tag = Constant.numberTag → k.number ≠ .negativeZero) := by
  obtain ⟨binary, hencode, hmain, hdigest, hheader⟩ := ofChunk_eq_ok hd
  obtain ⟨-, rfl⟩ :=
    (decode_encode_eq_ok_iff hmemory (hdigest ▸ Digest.length_sha256 binary)).1 he
  have hevery : c.main.Every fun _ _ => True := hnan.imp fun _ _ _ => trivial
  refine ⟨binary, hencode, hdigest, ?_⟩
  rw [toChunk_eq hevery hd hc', Chunk.encode_mapNumber_iff hfloat hsize hevery hencode]
  constructor
  · intro hkeeps
    refine (hnan.and hkeeps).imp fun p _ hp k hk htag => ?_
    exact (Number.imported_eq_self_iff (hp.1 k hk htag)).1 (hp.2 k hk htag)
  · intro hzero
    refine (hnan.and hzero).imp fun p _ hp k hk htag => ?_
    exact (Number.imported_eq_self_iff (hp.1 k hk htag)).2 (hp.2 k hk htag)

theorem encode_toChunk_negativeZero :
    ∃ d e c' binary, ofChunk (exportedChunk [.ofNumber .negativeZero]) = .ok d ∧ d.InMemory ∧
      decode d.encode = .ok e ∧ e.toChunk = .ok c' ∧
      (exportedChunk [.ofNumber .negativeZero]).encode = .ok binary ∧
      e.digest = Digest.sha256 binary ∧ c'.encode ≠ .ok binary := by
  obtain ⟨d, hd, hmemory, hlimits, c', hc'⟩ : ∃ d,
      ofChunk (exportedChunk [.ofNumber .negativeZero]) = .ok d ∧ d.InMemory ∧
      d.toItem.Within Cbor.maxLevels ∧
      ∃ c', (d.mapConstants (·.mapNumber Number.imported)).toChunk = .ok c' :=
    ⟨_, rfl, ⟨by decide, by decide +kernel, by decide +kernel⟩, by decide +kernel, _, rfl⟩
  obtain ⟨binary, -, -, hdigest, -⟩ := ofChunk_eq_ok hd
  have he := (decode_encode_eq_ok_iff hmemory (hdigest ▸ Digest.length_sha256 binary)).2
    ⟨⟨hlimits, isText_of_ofChunk hd (by decide +kernel)⟩, rfl⟩
  obtain ⟨binary, hencode, hdigest, hiff⟩ :=
    encode_toChunk_iff rfl rfl (by decide +kernel) hd hmemory he hc'
  exact ⟨d, _, c', binary, hd, hmemory, he, hc', hencode, hdigest,
    fun heq => absurd (hiff.1 heq) (by decide +kernel)⟩

end Document

end LuaAssembly
