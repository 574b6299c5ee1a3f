import Mathlib
import LuaAssembly.Chunk.Decode
import LuaAssembly.Proofs.Chunk.Tree

/-!
# What a chunk file keeps

Values are stored at the widths that the header declares, so a chunk that was written and read
again may differ from the original: integers and instructions are cut to their width, numbers are
converted to the number format, and of an upvalue only the name remains.  `Chunk.restored` is the
chunk with these changes made.  The conditions below say which values survive unchanged and which
counts and lengths the reader can take.
-/
namespace LuaAssembly

/-! ## Usable headers -/

/-- What a header that passes its checks guarantees. -/
structure Header.Usable (h : Header) : Prop where
  order : ∃ order, ByteOrder.ofTag? h.endianness = some order
  intSize : 1 ≤ h.intSize.toNat ∧ h.intSize.toNat ≤ 8
  sizeTSize : 1 ≤ h.sizeTSize.toNat ∧ h.sizeTSize.toNat ≤ 8
  instructionSize : 1 ≤ h.instructionSize.toNat ∧ h.instructionSize.toNat ≤ 8
  integerSize : h.integral = true → 1 ≤ h.numberSize.toNat ∧ h.numberSize.toNat ≤ 8
  floatSize : h.integral = false → h.numberSize = 4 ∨ h.numberSize = 8

namespace Header

theorem isWidth_iff (size : UInt8) : isWidth size = true ↔ 1 ≤ size.toNat ∧ size.toNat ≤ 8 := by
  simp [isWidth, UInt8.le_iff_toNat_le]

theorem problem?_eq_none_iff_validate (h : Header) :
    h.problem? = none ↔ h.validate = .ok () := by
  rw [validate]
  cases h.problem? <;> simp

theorem usable_of_problem? {h : Header} (hp : h.problem? = none) : h.Usable := by
  rw [problem?] at hp
  split_ifs at hp with h1 h2 h3 h4 h5 h6 h7
  · -- an integer format
    refine ⟨Option.ne_none_iff_exists'.1 (by simpa using h1), ?_, ?_, ?_, fun _ => ?_, ?_⟩
    · exact (isWidth_iff _).1 (by simpa using h2)
    · exact (isWidth_iff _).1 (by simpa using h3)
    · exact (isWidth_iff _).1 (by simpa using h4)
    · rcases h6 with h6 | h6 | h6 | h6 <;> rw [h6] <;> decide
    · intro hf
      rw [h5] at hf
      cases hf
  · -- a floating-point format
    refine ⟨Option.ne_none_iff_exists'.1 (by simpa using h1), ?_, ?_, ?_, ?_, fun _ => h7⟩
    · exact (isWidth_iff _).1 (by simpa using h2)
    · exact (isWidth_iff _).1 (by simpa using h3)
    · exact (isWidth_iff _).1 (by simpa using h4)
    · intro ht
      exact absurd ht h5

/-! ## Values that fit -/

/-- The integer lies in the signed range of the width of integers. -/
def IntFits (h : Header) (v : Int) : Prop :=
  -2 ^ (8 * h.intSize.toNat - 1) ≤ v ∧ v < 2 ^ (8 * h.intSize.toNat - 1)

/-- The reader accepts a list of this many elements: the count is not negative once it is read at
the width of integers, and not too large. -/
def CountFits (h : Header) (n : Nat) : Prop :=
  n < 2 ^ (8 * h.intSize.toNat - 1) ∧ n ≤ 2 ^ 24

/-- The count is stored without losing digits, so the reader finds either the count itself or a
negative number. -/
def CountKept (h : Header) (n : Nat) : Prop :=
  n < 2 ^ (8 * h.intSize.toNat)

/-- The length of the string, with the final zero byte, can be stored. -/
def LengthFits (h : Header) (s : Bytes) : Prop :=
  s.length + 1 < 2 ^ (8 * h.sizeTSize.toNat)

instance (h : Header) (v : Int) : Decidable (h.IntFits v) :=
  inferInstanceAs (Decidable (_ ∧ _))

instance (h : Header) : DecidablePred h.CountFits :=
  fun _ => inferInstanceAs (Decidable (_ ∧ _))

instance (h : Header) : DecidablePred h.CountKept :=
  fun _ => inferInstanceAs (Decidable (_ < _))

instance (h : Header) (s : Bytes) : Decidable (h.LengthFits s) :=
  inferInstanceAs (Decidable (_ < _))

theorem CountFits.kept {h : Header} {n : Nat} (hn : h.CountFits n) : h.CountKept n :=
  hn.1.trans_le (Nat.pow_le_pow_right (by decide) (Nat.sub_le ..))

end Header

namespace Prototype

/-- Every count of the function satisfies `P`; `nested` is the number of functions nested in
it. -/
@[mk_iff]
structure Counts (P : Nat → Prop) (p : Prototype) (nested : Nat) : Prop where
  code : P p.code.length
  constants : P p.constants.length
  nested : P nested
  lines : P p.lines.length
  locals : P p.locals.length
  upvalues : P p.upvalues.length

/-- The reader accepts every count of the function. -/
abbrev CountsFit (h : Header) (p : Prototype) (nested : Nat) : Prop :=
  p.Counts h.CountFits nested

/-- Every count of the function is kept. -/
abbrev CountsKept (h : Header) (p : Prototype) (nested : Nat) : Prop :=
  p.Counts h.CountKept nested

/-- Every string of the function can be stored. -/
@[mk_iff]
structure StringsFit (h : Header) (p : Prototype) : Prop where
  source : h.LengthFits p.source
  constants : ∀ k ∈ p.constants, h.LengthFits k.string
  locals : ∀ v ∈ p.locals, h.LengthFits v.name
  upvalues : ∀ u ∈ p.upvalues, h.LengthFits u.name

instance {P : Nat → Prop} [DecidablePred P] (p : Prototype) (nested : Nat) :
    Decidable (p.Counts P nested) :=
  decidable_of_iff _ (counts_iff P p nested).symm

instance (h : Header) (p : Prototype) : Decidable (p.StringsFit h) :=
  decidable_of_iff _ (stringsFit_iff h p).symm

theorem Counts.imp {P Q : Nat → Prop} {p : Prototype} {nested : Nat} (hp : p.Counts P nested)
    (hPQ : ∀ n, P n → Q n) : p.Counts Q nested :=
  ⟨hPQ _ hp.code, hPQ _ hp.constants, hPQ _ hp.nested, hPQ _ hp.lines, hPQ _ hp.locals,
    hPQ _ hp.upvalues⟩

theorem CountsFit.kept {h : Header} {p : Prototype} {nested : Nat} (hp : p.CountsFit h nested) :
    p.CountsKept h nested :=
  hp.imp fun _ => Header.CountFits.kept

/-- The function has a binary form: the tags of its constants are known, and its upvalues can be
counted in one byte. -/
structure Encodable (p : Prototype) : Prop where
  tags : ∀ k ∈ p.constants, k.tag = Constant.numberTag ∨ k.tag = Constant.stringTag
  upvalues : p.upvalues.length ≤ 255

end Prototype

/-! ## What is restored -/

namespace Header

/-- The number that a stored code stands for. -/
def numberOf (h : Header) (x : Nat) : Number :=
  if h.integral then .ofInt (Sized.signExtend h.numberSize.toNat x)
  else if h.numberSize = 4 then .widen .single x
  else ⟨BitVec.ofNat 64 x⟩

/-- An integer after it was stored. -/
def restoredInt (h : Header) (v : Int) : Int :=
  Sized.signExtend h.intSize.toNat (Sized.wrap64 v % 256 ^ h.intSize.toNat)

/-- An instruction after it was stored. -/
def restoredWord (h : Header) (w : Word) : Word :=
  BitVec.ofNat 32 (w.toNat % 256 ^ h.instructionSize.toNat)

/-- A number after it was stored. -/
def restoredNumber (h : Header) (v : Number) : Number :=
  h.numberOf (Encode.numberCode h v % 256 ^ h.numberSize.toNat)

end Header

/-- A constant after it was stored. -/
def Constant.restored (h : Header) (k : Constant) : Constant :=
  if k.tag = numberTag then .ofNumber (h.restoredNumber k.number) else .ofString k.string

/-- A local variable after it was stored. -/
def LocalVar.restored (h : Header) (v : LocalVar) : LocalVar :=
  ⟨v.name, h.restoredInt v.first, h.restoredInt v.last⟩

/-- An upvalue after it was stored. -/
def Upvalue.restored (u : Upvalue) : Upvalue :=
  ⟨u.name, 0, false⟩

/-- A function after it was stored. -/
def Prototype.restored (h : Header) (p : Prototype) : Prototype :=
  { p with
    lineDefined := h.restoredInt p.lineDefined
    lastLineDefined := h.restoredInt p.lastLineDefined
    code := p.code.map h.restoredWord
    constants := p.constants.map (Constant.restored h)
    lines := p.lines.map h.restoredInt
    locals := p.locals.map (LocalVar.restored h)
    upvalues := p.upvalues.map Upvalue.restored }

deriving instance DecidableEq for Chunk

/-- A chunk after it was stored. -/
def Chunk.restored (c : Chunk) : Chunk :=
  ⟨c.header, c.main.map (Prototype.restored c.header)⟩

/-- The reader can take every list and string of the chunk: no count and no length is lost, no
list is too long, and functions are not nested too deeply. -/
@[mk_iff]
structure Chunk.Fits (c : Chunk) : Prop where
  counts : c.main.Every (Prototype.CountsFit c.header)
  strings : c.main.Every fun p _ => p.StringsFit c.header
  nesting : c.main.levels ≤ Decode.maxDepth

instance (c : Chunk) : Decidable c.Fits :=
  decidable_of_iff _ c.fits_iff.symm

end LuaAssembly
