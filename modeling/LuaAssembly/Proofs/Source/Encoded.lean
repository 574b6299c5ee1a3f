import Mathlib
import LuaAssembly.Proofs.Chunk.Layout
import LuaAssembly.Proofs.Source.Reassembly

/-!
# Every parsed chunk can be written

The assembler checks the integers, the operands and the numbers of upvalues as it reads them, and
the writer relies on that.  For every source that is accepted, the checks that were made are enough:
writing never stops, and the one byte in which the upvalues of a function are counted is never too
small.
-/
namespace LuaAssembly

/-- A parsed chunk is well formed and has a binary form.  Its header is valid, and in no place, at
any depth, is a function missing.  Every function has only instructions as its code, only integers
of 32 bits, and only constants whose part that is not used is empty.  The bytes of the function
stand together in the binary form, and in them the upvalues are counted in one byte, with the number
that also stands in front of the names. -/
theorem encode_of_parse {source : Bytes} {c : Chunk} (h : parse source = .ok c) :
    c.header.validate = .ok () ∧ ∃ out, c.encode = .ok out ∧
      ∀ t, c.main.Contains t → ∃ p nested, t = .node p nested ∧ p.Listable ∧
        (∀ k ∈ p.constants, k = .ofNumber k.number ∨ k = .ofString k.string) ∧
        (Encode.function c.header t).bytes <:+: out ∧
        ∃ total : UInt8, total.toNat = p.upvalues.length ∧
          (Encode.function c.header t).bytes[Encode.upvalueTotalOffset c.header p]? = some total ∧
          (Encode.int c.header total.toNat).bytes ++
              p.upvalues.flatMap (fun u => (Encode.string c.header u.name).bytes) <:+
            (Encode.function c.header t).bytes := by
  obtain ⟨hvalid, hproper⟩ := parse_proper h
  have hproblem := (Header.problem?_eq_none_iff_validate _).2 hvalid
  have hu := Header.usable_of_problem? hproblem
  have hencodable : c.main.Every fun p _ => p.Encodable := hproper.imp fun p n hp => hp.1.encodable
  have hstop := Encode.function_stop hu hencodable
  refine ⟨hvalid, _, Chunk.encode_eq hproblem hproper.isAbsent hstop, fun t ht => ?_⟩
  have hinfix := (Encode.function_infix ht hstop).trans
    (List.suffix_append (Encode.header c.header) _).isInfix
  cases hproper.contains ht with
  | @node p nested here _ =>
    have htotal : (UInt8.ofNat p.upvalues.length).toNat = p.upvalues.length := by
      have hle : p.upvalues.length ≤ 255 := here.1.upvalueCount
      rw [UInt8.toNat_ofNat']
      omega
    have hconstants : ∀ k ∈ p.constants, k = .ofNumber k.number ∨ k = .ofString k.string :=
      fun k hk => (here.2 k hk).imp_left And.left
    obtain ⟨hbyte, hnames⟩ :=
      Encode.function_upvalues hu (Encode.function_stop hu (hencodable.contains ht))
    refine ⟨p, nested, rfl, here.1, hconstants, hinfix, _, htotal, hbyte, ?_⟩
    rwa [htotal]

/-- The function that is nested in the chunk of `narrowSource` has its upvalue counted in the byte
behind its first five bytes. -/
theorem encode_of_parse_narrowSource :
    parse narrowSource = .ok narrowChunk ∧ ∃ out p, narrowChunk.encode = .ok out ∧
      narrowChunk.main.Contains (.node p []) ∧ p.upvalues = [⟨utf8 "a", 5, true⟩] ∧
      (Encode.function narrowChunk.header (.node p [])).bytes <:+: out ∧
      (Encode.function narrowChunk.header (.node p [])).bytes[5]? = some 1 := by
  have hparse : parse narrowSource = .ok narrowChunk := by decide +kernel
  have hinner : narrowChunk.main.Contains (.node
      { source := [], lineDefined := 1, lastLineDefined := 2, numParams := 0, isVararg := 0,
        maxStackSize := 2, code := [0x00000004, 0x0100001E], constants := [], lines := [],
        locals := [], upvalues := [⟨utf8 "a", 5, true⟩] } []) :=
    .nested List.mem_cons_self (.self _)
  obtain ⟨-, out, hout, hfunctions⟩ := encode_of_parse hparse
  obtain ⟨p, nested, heq, -, -, hinfix, total, htotal, hbyte, -⟩ := hfunctions _ hinner
  cases heq
  obtain rfl : total = 1 := UInt8.toNat_inj.1 htotal
  exact ⟨hparse, out, _, hout, hinner, rfl, hinfix, hbyte⟩

end LuaAssembly
