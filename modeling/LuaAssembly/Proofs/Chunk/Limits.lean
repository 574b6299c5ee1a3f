import Mathlib
import LuaAssembly.Proofs.Chunk.Fields

/-!
# What the reader can give

A count, a length or a value that was read is within the limits of the width at which it was
read.  So no chunk that the reader gives has a list, a string or a value that could not be stored
under its header.
-/
namespace LuaAssembly

namespace Decoder

variable {α β : Type} {P : α → Prop} {Q : β → Prop}

/-- Whatever the decoder reads has the property. -/
def Ensures (d : Decoder α) (P : α → Prop) : Prop :=
  ∀ c a c', d c = .ok (a, c') → P a

theorem ensures_pure {a : α} (h : P a) : (pure a : Decoder α).Ensures P := by
  intro c a' c' ha
  cases ha
  exact h

theorem ensures_fail (p : DecodeProblem) : (fail p : Decoder α).Ensures P :=
  fun _ _ _ h => by cases h

theorem ensures_true (d : Decoder α) : d.Ensures fun _ => True :=
  fun _ _ _ _ => trivial

theorem Ensures.bind {d : Decoder α} {f : α → Decoder β} (h : d.Ensures P)
    (hf : ∀ a, P a → (f a).Ensures Q) : (d >>= f).Ensures Q := by
  intro c b c'' hb
  simp only [Bind.bind, andThen] at hb
  cases hd : d c with
  | error p => rw [hd] at hb; cases hb
  | ok r =>
    obtain ⟨a, c'⟩ := r
    rw [hd] at hb
    exact hf a (h c a c' hd) c' b c'' hb

theorem Ensures.replicate {d : Decoder α} (h : d.Ensures P) (n : Nat) :
    (replicate n d).Ensures fun xs => xs.length = n ∧ ∀ x ∈ xs, P x := by
  induction n with
  | zero => exact ensures_pure ⟨rfl, by simp⟩
  | succ n ih =>
    rw [replicate_succ]
    refine h.bind fun x hx => ih.bind fun xs hxs => ensures_pure ⟨?_, ?_⟩
    · rw [List.length_cons, hxs.1]
    · exact List.forall_mem_cons.2 ⟨hx, hxs.2⟩

theorem ensures_take (part : Part) (n : Nat) :
    (take part n).Ensures fun bs => bs.length = n := by
  have hsplit : ∀ {n : Nat} {bs front back : Bytes}, bs.splitAt? n = some (front, back) →
      front.length = n := by
    intro n
    induction n with
    | zero =>
      intro bs front back h
      rw [Bytes.splitAt?] at h
      cases h
      rfl
    | succ n ih =>
      intro bs front back h
      cases bs with
      | nil => cases h
      | cons b bs =>
        rw [Bytes.splitAt?] at h
        split at h
        · cases h
          rw [List.length_cons, ih ‹_›]
        · cases h
  intro c bs c' h
  rw [take] at h
  split at h
  · cases h
    exact hsplit ‹_›
  · cases h

end Decoder

namespace Sized

theorem ofLittle_lt (bs : Bytes) : ofLittle bs < 256 ^ bs.length := by
  induction bs with
  | nil => exact Nat.one_pos
  | cons b bs ih =>
    have hb := b.toNat_lt
    rw [ofLittle, List.length_cons, Nat.pow_succ]
    omega

theorem read_lt (order : ByteOrder) (bs : Bytes) : read order bs < 256 ^ bs.length := by
  cases order with
  | little => exact ofLittle_lt bs
  | big => simpa [read] using ofLittle_lt bs.reverse

end Sized

open Decoder

variable {h : Header} {total : Nat}

namespace Decode

theorem ensures_sized (size : UInt8) (part : Part) :
    (Decode.sized h size part).Ensures fun x => x < 256 ^ size.toNat :=
  (ensures_take part _).bind fun bs hbs => ensures_pure (hbs ▸ Sized.read_lt _ bs)

theorem problem?_of_header {bs rest : Bytes} (hbs : Decode.header bs = .ok (h, rest)) :
    h.problem? = none := by
  rw [Decode.header.eq_def] at hbs
  split at hbs
  · split_ifs at hbs
    dsimp only at hbs
    split at hbs
    · cases hbs
    · cases hbs
      assumption
  · cases hbs

theorem length_of_dropTerminator {part : Part} {bs s : Bytes}
    (hs : dropTerminator part bs = .ok s) : s.length + 1 = bs.length := by
  induction bs generalizing s with
  | nil => cases hs
  | cons b bs ih =>
    cases bs with
    | nil =>
      rw [dropTerminator] at hs
      split_ifs at hs
      cases hs
      rfl
    | cons b' bs =>
      rw [dropTerminator] at hs
      · split at hs
        · cases hs
          rw [List.length_cons, ih ‹_›]
          rfl
        · cases hs
      · simp

end Decode

namespace Header.Usable

theorem lengthFits_nil (hu : h.Usable) : h.LengthFits [] :=
  Nat.one_lt_two_pow (by have := hu.sizeTSize.1; omega)

theorem ensures_string (hu : h.Usable) (lengthPart part : Part) :
    (Decode.string h total lengthPart part).Ensures h.LengthFits := by
  refine (Decode.ensures_sized h.sizeTSize lengthPart).bind fun n hn => ?_
  split_ifs
  · exact ensures_pure hu.lengthFits_nil
  · exact ensures_fail _
  · refine (ensures_take part n).bind fun bs hbs => ?_
    split
    · refine ensures_pure ?_
      rw [Header.LengthFits, Decode.length_of_dropTerminator ‹_›, hbs, ← Sized.pow_256]
      exact hn
    · exact ensures_fail _

theorem ensures_int (hu : h.Usable) (part : Part) : (Decode.int h part).Ensures h.IntFits := by
  refine (ensures_true _).bind fun x _ => ensures_pure ?_
  exact ((Sized.bmod_width_eq_iff hu.intSize.1).1 rfl).1

theorem ensures_count (hu : h.Usable) (part : Part) :
    (Decode.count h part).Ensures h.CountFits := by
  refine (hu.ensures_int part).bind fun n hn => (ensures_true _).bind fun pos _ => ?_
  split_ifs with hrange
  · exact ensures_fail _
  · refine ensures_pure ?_
    have hcast : ((2 ^ (8 * h.intSize.toNat - 1) : Nat) : Int) = 2 ^ (8 * h.intSize.toNat - 1) := by
      simp
    have hhi := hn.2
    rw [Decode.maxCount] at hrange
    exact ⟨by omega, by omega⟩

theorem ensures_instruction :
    (Decode.instruction h).Ensures fun w => w.toNat < 2 ^ (8 * h.instructionSize.toNat) := by
  refine (Decode.ensures_sized h.instructionSize .instruction).bind fun x hx => ensures_pure ?_
  rw [Sized.pow_256] at hx
  rw [BitVec.toNat_ofNat]
  exact (Nat.mod_le _ _).trans_lt hx

theorem ensures_constant (hu : h.Usable) :
    (Decode.constant h total).Ensures fun k =>
      h.LengthFits k.string ∧ (k = .ofNumber k.number ∨ k = .ofString k.string) := by
  refine (ensures_true _).bind fun pos _ => (ensures_true _).bind fun tag _ => ?_
  split_ifs
  · exact (ensures_true _).bind fun v _ => ensures_pure ⟨hu.lengthFits_nil, .inl rfl⟩
  · exact (hu.ensures_string _ _).bind fun s hs => ensures_pure ⟨hs, .inr rfl⟩
  · exact ensures_fail _

theorem ensures_localVar (hu : h.Usable) :
    (Decode.localVar h total).Ensures fun v =>
      h.LengthFits v.name ∧ h.IntFits v.first ∧ h.IntFits v.last := by
  refine (hu.ensures_string _ _).bind fun name hname => ?_
  refine (hu.ensures_int _).bind fun first hfirst => (hu.ensures_int _).bind fun last hlast => ?_
  exact ensures_pure ⟨hname, hfirst, hlast⟩

theorem ensures_upvalues (hu : h.Usable) (nups : UInt8) :
    (Decode.upvalues h total nups).Ensures fun us =>
      us.length ≤ 255 ∧ ∀ u ∈ us, h.LengthFits u.name ∧ u.index = 0 ∧ u.inStack = false := by
  refine (ensures_true _).bind fun n _ => ?_
  split_ifs with hn
  · exact ensures_fail _
  · refine ((hu.ensures_string _ _).replicate n).bind fun names hnames => ensures_pure ⟨?_, ?_⟩
    · -- There are as many upvalues as the byte says, with names or without.
      have hnups := nups.toNat_lt
      simp only [List.length_map, List.length_append, List.length_replicate, hnames.1]
      omega
    · intro u hmem
      obtain ⟨name, hname, rfl⟩ := List.mem_map.1 hmem
      refine ⟨?_, rfl, rfl⟩
      rcases List.mem_append.1 hname with hname | hname
      · exact hnames.2 name hname
      · rw [List.eq_of_mem_replicate hname]
        exact hu.lengthFits_nil

end Header.Usable

/-- A function as the reader gives it; `nested` is the number of functions nested in it.  Every
list but one is as long as the count in front of it says.  The exception are the upvalues: they
are counted in one byte, and their names can be missing. -/
structure Prototype.IsRead (h : Header) (p : Prototype) (nested : Nat) : Prop where
  lineDefined : h.IntFits p.lineDefined
  lastLineDefined : h.IntFits p.lastLineDefined
  codeCount : h.CountFits p.code.length
  code : ∀ w ∈ p.code, w.toNat < 2 ^ (8 * h.instructionSize.toNat)
  constantCount : h.CountFits p.constants.length
  constants : ∀ k ∈ p.constants, k = .ofNumber k.number ∨ k = .ofString k.string
  nestedCount : h.CountFits nested
  lineCount : h.CountFits p.lines.length
  lines : ∀ v ∈ p.lines, h.IntFits v
  localCount : h.CountFits p.locals.length
  locals : ∀ v ∈ p.locals, h.IntFits v.first ∧ h.IntFits v.last
  upvalueTotal : p.upvalues.length ≤ 255
  upvalues : ∀ u ∈ p.upvalues, u.index = 0 ∧ u.inStack = false
  strings : p.StringsFit h

/-- What a function that was read is like, and how deep functions are nested in it. -/
theorem Header.Usable.ensures_function (hu : h.Usable) (depth : Nat) :
    (Decode.function h total depth).Ensures fun t =>
      t.Every (Prototype.IsRead h) ∧ t.levels < depth := by
  induction depth with
  | zero => exact (ensures_true _).bind fun _ _ => ensures_fail _
  | succ depth ih =>
    rw [Decode.function]
    -- Part by part: a list has as many elements as the count in front of it says.
    refine (hu.ensures_string _ _).bind fun source hsource => ?_
    refine (hu.ensures_int _).bind fun first hfirst => (hu.ensures_int _).bind fun last hlast => ?_
    refine (ensures_true _).bind fun nups _ => (ensures_true _).bind fun _ _ => ?_
    refine (ensures_true _).bind fun _ _ => (ensures_true _).bind fun _ _ => ?_
    refine (hu.ensures_count _).bind fun _ hcode => ?_
    refine (ensures_instruction.replicate _).bind fun code hcode' => ?_
    refine (hu.ensures_count _).bind fun _ hconstants => ?_
    refine (hu.ensures_constant.replicate _).bind fun constants hconstants' => ?_
    refine (hu.ensures_count _).bind fun _ hnested => ?_
    refine (ih.replicate _).bind fun nested hnested' => ?_
    refine (hu.ensures_count _).bind fun _ hlines => ?_
    refine ((hu.ensures_int _).replicate _).bind fun lines hlines' => ?_
    refine (hu.ensures_count _).bind fun _ hlocals => ?_
    refine (hu.ensures_localVar.replicate _).bind fun locals hlocals' => ?_
    refine (hu.ensures_upvalues nups).bind fun upvalues hupvalues => ensures_pure ⟨?_, ?_⟩
    · refine .node ?_ fun t ht => (hnested'.2 t ht).1
      exact
        { lineDefined := hfirst
          lastLineDefined := hlast
          codeCount := hcode'.1.symm ▸ hcode
          code := hcode'.2
          constantCount := hconstants'.1.symm ▸ hconstants
          constants := fun k hk => (hconstants'.2 k hk).2
          nestedCount := hnested'.1.symm ▸ hnested
          lineCount := hlines'.1.symm ▸ hlines
          lines := hlines'.2
          localCount := hlocals'.1.symm ▸ hlocals
          locals := fun v hv => (hlocals'.2 v hv).2
          upvalueTotal := hupvalues.1
          upvalues := fun u hm => (hupvalues.2 u hm).2
          strings := ⟨hsource, fun k hk => (hconstants'.2 k hk).1,
            fun v hv => (hlocals'.2 v hv).1, fun u hm => (hupvalues.2 u hm).1⟩ }
    · rw [Nat.lt_succ_iff, FunctionTree.levels_node_le]
      exact fun t ht => (hnested'.2 t ht).2

namespace Prototype.IsRead

variable {p : Prototype} {nested : Nat}

theorem kept (hu : h.Usable) (hp : p.IsRead h nested) : p.CountsKept h nested where
  code := hp.codeCount.kept
  constants := hp.constantCount.kept
  nested := hp.nestedCount.kept
  lines := hp.lineCount.kept
  locals := hp.localCount.kept
  upvalues := by
    have hpow : 2 ^ 8 ≤ 2 ^ (8 * h.intSize.toNat) :=
      Nat.pow_le_pow_right (by decide) (by have := hu.intSize.1; omega)
    have hle := hp.upvalueTotal
    rw [Header.CountKept]
    omega

theorem encodable (hp : p.IsRead h nested) : p.Encodable where
  tags k hk := (hp.constants k hk).imp (fun heq => by rw [heq]; rfl) fun heq => by rw [heq]; rfl
  upvalues := hp.upvalueTotal

end Prototype.IsRead

namespace Chunk

variable {bs : Bytes} {c : Chunk}

/-- What a chunk that was read is like. -/
theorem isRead_of_decode (hc : Chunk.decode bs = .ok c) :
    c.header.problem? = none ∧ c.main.Every (Prototype.IsRead c.header) ∧
      c.main.levels ≤ Decode.maxDepth := by
  rw [decode] at hc
  split at hc
  · cases hc
  · rename_i header rest hheader
    split at hc
    · cases hc
    · split_ifs at hc
      cases hc
      have hproblem := Decode.problem?_of_header hheader
      obtain ⟨hread, hlevels⟩ :=
        (Header.usable_of_problem? hproblem).ensures_function _ _ _ _ ‹_›
      exact ⟨hproblem, hread, Nat.le_of_lt_succ hlevels⟩

/-- In a chunk that was read, every count and every length could be stored again. -/
theorem every_of_decode (hc : Chunk.decode bs = .ok c) :
    c.main.Every fun p n => p.CountsKept c.header n ∧ p.StringsFit c.header := by
  obtain ⟨hproblem, hread, -⟩ := isRead_of_decode hc
  have hu := Header.usable_of_problem? hproblem
  exact hread.imp fun p n hp => ⟨hp.kept hu, hp.strings⟩

end Chunk

end LuaAssembly
