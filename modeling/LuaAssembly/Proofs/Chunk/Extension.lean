import Mathlib
import LuaAssembly.Proofs.Chunk.ReadBack

/-!
# Chunks and their beginnings

The end of a chunk is not marked: counts and lengths inside tell where it is.  So the reader finds
out by itself that bytes are missing or left over, and no chunk is a proper beginning of another.

The argument compares the reading of some bytes with the reading of the same bytes and more behind
them.  Both runs make the same decisions until the shorter one comes to an end of its bytes.  One
decision looks further than the bytes that are read: the length of a string is compared with the
size of the whole chunk.  The longer chunk only allows more there, so a length that the shorter one
refuses counts as a way to find that bytes are missing.
-/
namespace LuaAssembly

/-- The problem is that the bytes end too early. -/
def DecodeProblem.IsTruncation : DecodeProblem → Prop
  | .tooShort _ | .unexpectedEnd _ _ | .length _ _ => True
  | _ => False

namespace Bytes

/-- Splitting succeeds when there are enough bytes. -/
theorem splitAt?_eq (n : Nat) (bs : Bytes) :
    bs.splitAt? n = if n ≤ bs.length then some (bs.take n, bs.drop n) else none := by
  induction n generalizing bs with
  | zero => simp [splitAt?]
  | succ n ih =>
    cases bs with
    | nil => simp [splitAt?]
    | cons b bs =>
      rw [splitAt?, ih]
      by_cases hn : n ≤ bs.length <;> simp [hn]

/-- What is split off is not changed by bytes that are added at the end. -/
theorem splitAt?_append_right {n : Nat} {bs front back : Bytes}
    (h : bs.splitAt? n = some (front, back)) (more : Bytes) :
    (bs ++ more).splitAt? n = some (front, back ++ more) := by
  rw [splitAt?_eq] at h ⊢
  split_ifs at h with hn
  cases h
  have hle : n ≤ (bs ++ more).length := by
    rw [List.length_append]
    omega
  rw [if_pos hle, List.take_append_of_le_length hn, List.drop_append_of_le_length hn]

end Bytes

/-! ## Readers of a beginning and of the whole -/

namespace Decoder

variable {α β : Type}

/-- The reader `d'` does on longer bytes what `d` does on a beginning of them.  What `d` reads, `d'`
reads as well, and it leaves the added bytes behind what `d` leaves.  Where `d` stops, `d'` stops
with the same problem, unless the problem is that bytes are missing. -/
structure Extends (d d' : Decoder α) : Prop where
  read : ∀ {rest pos a c}, d ⟨rest, pos⟩ = .ok (a, c) →
    ∀ more, d' ⟨rest ++ more, pos⟩ = .ok (a, ⟨c.rest ++ more, c.pos⟩)
  stop : ∀ {rest pos p}, d ⟨rest, pos⟩ = .error p → ¬ p.IsTruncation →
    ∀ more, d' ⟨rest ++ more, pos⟩ = .error p

namespace Extends

theorem pure (a : α) : Extends (pure a) (pure a) where
  read h more := by
    cases h
    rfl
  stop h := by cases h

theorem fail (p : DecodeProblem) : Extends (fail p : Decoder α) (fail p) where
  read h := by cases h
  stop h _ more := by
    cases h
    rfl

/-- A reader that finds bytes missing may go on as it likes when there are more. -/
theorem fail_left {p : DecodeProblem} (hp : p.IsTruncation) (d : Decoder α) :
    Extends (Decoder.fail p) d where
  read h := by cases h
  stop h hnot := by
    cases h
    exact absurd hp hnot

theorem position : Extends position position where
  read h more := by
    cases h
    rfl
  stop h := by cases h

theorem bind {d d' : Decoder α} {f f' : α → Decoder β} (h : Extends d d')
    (hf : ∀ a, Extends (f a) (f' a)) : Extends (d >>= f) (d' >>= f') where
  read {rest pos b c} hb more := by
    simp only [Bind.bind, andThen] at hb ⊢
    cases hd : d ⟨rest, pos⟩ with
    | error p => simp [hd] at hb
    | ok r =>
      obtain ⟨a, c₁⟩ := r
      rw [hd] at hb
      rw [h.read hd more]
      exact (hf a).read hb more
  stop {rest pos p} hp hnot more := by
    simp only [Bind.bind, andThen] at hp ⊢
    cases hd : d ⟨rest, pos⟩ with
    | error p' =>
      rw [hd] at hp
      cases hp
      rw [h.stop hd hnot more]
    | ok r =>
      obtain ⟨a, c₁⟩ := r
      rw [hd] at hp
      rw [h.read hd more]
      exact (hf a).stop hp hnot more

theorem take (part : Part) (n : Nat) : Extends (take part n) (take part n) where
  read {rest pos a c} h more := by
    simp only [Decoder.take] at h ⊢
    split at h
    · rename_i front back hsplit
      cases h
      simp only [Bytes.splitAt?_append_right hsplit]
    · cases h
  stop {rest pos p} h hnot := by
    simp only [Decoder.take] at h
    split at h
    · cases h
    · cases h
      exact absurd trivial hnot

theorem byte (part : Part) : Extends (byte part) (byte part) where
  read {rest pos a c} h more := by
    cases rest with
    | nil => cases h
    | cons b rest =>
      cases h
      rfl
  stop {rest pos p} h hnot := by
    cases rest with
    | nil =>
      cases h
      exact absurd trivial hnot
    | cons b rest => cases h

theorem replicate {d d' : Decoder α} (h : Extends d d') (n : Nat) :
    Extends (replicate n d) (replicate n d') := by
  induction n with
  | zero => exact pure []
  | succ n ih =>
    rw [replicate_succ, replicate_succ]
    exact h.bind fun x => ih.bind fun xs => pure _

theorem ite {d₁ d₂ d₁' d₂' : Decoder α} {P : Prop} [Decidable P] (h₁ : Extends d₁ d₁')
    (h₂ : Extends d₂ d₂') : Extends (if P then d₁ else d₂) (if P then d₁' else d₂') := by
  split_ifs
  · exact h₁
  · exact h₂

end Extends

end Decoder

/-! ## The parts of a chunk -/

namespace Decode

open Decoder

variable (h : Header) {total total' : Nat}

theorem sized_extends (size : UInt8) (part : Part) :
    Extends (sized h size part) (sized h size part) :=
  (Extends.take part _).bind fun _ => .pure _

theorem int_extends (part : Part) : Extends (int h part) (int h part) :=
  (sized_extends h _ part).bind fun _ => .pure _

theorem count_extends (part : Part) : Extends (count h part) (count h part) :=
  (int_extends h part).bind fun _ => Extends.position.bind fun _ => .ite (.fail _) (.pure _)

theorem string_extends (hle : total ≤ total') (lengthPart part : Part) :
    Extends (string h total lengthPart part) (string h total' lengthPart part) := by
  refine (sized_extends h _ lengthPart).bind fun n => .ite (.pure _) ?_
  -- The longer chunk refuses no length that the shorter one allows.
  by_cases hn : total < n
  · rw [if_pos hn]
    exact .fail_left (p := .length part n) trivial _
  · rw [if_neg hn, if_neg (by omega)]
    refine (Extends.take part n).bind fun bs => ?_
    cases dropTerminator part bs with
    | ok s => exact .pure _
    | error p => exact .fail p

theorem number_extends (part : Part) : Extends (number h part) (number h part) :=
  (sized_extends h _ part).bind fun _ => .ite (.pure _) (.ite (.pure _) (.pure _))

theorem instruction_extends : Extends (instruction h) (instruction h) :=
  (sized_extends h _ _).bind fun _ => .pure _

theorem constant_extends (hle : total ≤ total') :
    Extends (constant h total) (constant h total') := by
  refine Extends.position.bind fun pos => (Extends.byte _).bind fun tag => .ite ?_ (.ite ?_ ?_)
  · exact (number_extends h _).bind fun _ => .pure _
  · exact (string_extends h hle _ _).bind fun _ => .pure _
  · exact .fail _

theorem localVar_extends (hle : total ≤ total') :
    Extends (localVar h total) (localVar h total') :=
  (string_extends h hle _ _).bind fun _ => (int_extends h _).bind fun _ =>
    (int_extends h _).bind fun _ => .pure _

theorem upvalues_extends (hle : total ≤ total') (nups : UInt8) :
    Extends (upvalues h total nups) (upvalues h total' nups) := by
  refine (count_extends h _).bind fun n => .ite (.fail _) ?_
  exact ((string_extends h hle _ _).replicate n).bind fun _ => .pure _

theorem function_extends (hle : total ≤ total') (depth : Nat) :
    Extends (function h total depth) (function h total' depth) := by
  induction depth with
  | zero => exact Extends.position.bind fun _ => .fail _
  | succ depth ih =>
    rw [function, function]
    refine (string_extends h hle _ _).bind fun _ => ?_
    refine (int_extends h _).bind fun _ => (int_extends h _).bind fun _ => ?_
    refine (Extends.byte _).bind fun nups => (Extends.byte _).bind fun _ => ?_
    refine (Extends.byte _).bind fun _ => (Extends.byte _).bind fun _ => ?_
    refine (count_extends h _).bind fun _ => ((instruction_extends h).replicate _).bind fun _ => ?_
    refine (count_extends h _).bind fun _ => ((constant_extends h hle).replicate _).bind fun _ => ?_
    refine (count_extends h _).bind fun _ => (ih.replicate _).bind fun _ => ?_
    refine (count_extends h _).bind fun _ => ((int_extends h _).replicate _).bind fun _ => ?_
    refine (count_extends h _).bind fun _ => ((localVar_extends h hle).replicate _).bind fun _ => ?_
    exact (upvalues_extends h hle nups).bind fun _ => .pure _

/-- The header is read off the first bytes, if there are enough of them, whatever follows. -/
theorem header_append (bs more : Bytes) :
    header bs = .error (.tooShort bs.length) ∨
      header (bs ++ more) = (header bs).map fun r => (r.1, r.2 ++ more) := by
  rw [header.eq_def bs]
  split
  · right
    simp only [List.cons_append, header]
    split_ifs
    · rfl
    · rfl
    · split <;> rfl
  · exact .inl rfl

end Decode

/-! ## Chunks -/

namespace Chunk

variable {bs : Bytes} {c : Chunk}

/-- A chunk is a header and a main function with nothing behind it. -/
theorem decode_eq_ok_iff :
    Chunk.decode bs = .ok c ↔
      ∃ rest pos, Decode.header bs = .ok (c.header, rest) ∧
        Decode.function c.header bs.length (Decode.maxDepth + 1) ⟨rest, Decode.headerSize⟩ =
          .ok (c.main, ⟨[], pos⟩) := by
  constructor
  · intro h
    rw [decode] at h
    split at h
    · cases h
    · rename_i header rest hheader
      split at h
      · cases h
      · rename_i main cursor hmain
        obtain ⟨left, pos⟩ := cursor
        split_ifs at h with hleft
        cases h
        cases hleft
        exact ⟨rest, pos, hheader, hmain⟩
  · rintro ⟨rest, pos, hheader, hmain⟩
    simp [decode, hheader, hmain]

/-- A beginning of a chunk is refused because its bytes end too early. -/
theorem decode_of_append {more : Bytes} (h : Chunk.decode (bs ++ more) = .ok c)
    (hmore : more ≠ []) : ∃ p, Chunk.decode bs = .error p ∧ p.IsTruncation := by
  obtain ⟨rest, pos, hheader, hmain⟩ := decode_eq_ok_iff.1 h
  rcases Decode.header_append bs more with hshort | hlong
  · exact ⟨.tooShort bs.length, by rw [decode, hshort], trivial⟩
  rw [hheader] at hlong
  cases hbs : Decode.header bs with
  | error p => simp [hbs, Except.map] at hlong
  | ok r =>
    obtain ⟨header, rest'⟩ := r
    simp only [hbs, Except.map, Except.ok.injEq, Prod.mk.injEq] at hlong
    obtain ⟨rfl, rfl⟩ := hlong
    have hle : bs.length ≤ (bs ++ more).length := by simp
    have hext := Decode.function_extends c.header hle (Decode.maxDepth + 1)
    cases hfront : Decode.function c.header bs.length (Decode.maxDepth + 1)
        ⟨rest', Decode.headerSize⟩ with
    | error p =>
      refine ⟨p, by simp only [decode, hbs, hfront], ?_⟩
      by_contra hnot
      rw [hext.stop hfront hnot more] at hmain
      cases hmain
    | ok r =>
      -- The function ends inside the shorter bytes, so it does not reach the end of the others.
      rw [hext.read hfront more] at hmain
      simp [hmore] at hmain

/-- Bytes behind a chunk are refused. -/
theorem decode_append (h : Chunk.decode bs = .ok c) {more : Bytes} (hmore : more ≠ []) :
    Chunk.decode (bs ++ more) = .error (.trailing more.length) := by
  obtain ⟨rest, pos, hheader, hmain⟩ := decode_eq_ok_iff.1 h
  have hheader' : Decode.header (bs ++ more) = .ok (c.header, rest ++ more) := by
    rcases Decode.header_append bs more with hshort | hlong
    · simp [hheader] at hshort
    · rw [hlong, hheader, Except.map]
  have hle : bs.length ≤ (bs ++ more).length := by simp
  have hmain' := (Decode.function_extends c.header hle _).read hmain more
  simp only [decode, hheader', hmain', List.nil_append, if_neg hmore]

/-- No chunk is a proper beginning of another.  A proper beginning of a chunk is refused because
its bytes end too early, and a chunk with more bytes behind it because of these bytes. -/
theorem decode_prefixFree (h : Chunk.decode bs = .ok c) :
    (∀ front, front <+: bs → front ≠ bs → ∃ p, Chunk.decode front = .error p ∧ p.IsTruncation) ∧
      ∀ longer, bs <+: longer → longer ≠ bs →
        Chunk.decode longer = .error (.trailing (longer.length - bs.length)) := by
  constructor
  · rintro front ⟨more, rfl⟩ hne
    exact decode_of_append h (by simpa using hne.symm)
  · rintro longer ⟨more, rfl⟩ hne
    rw [decode_append h (by simpa using hne), List.length_append, Nat.add_sub_cancel_left]

end Chunk

/-- The bytes of `nestedChunk`. -/
def nestedBytes : Bytes :=
  [ 0x1B, 0x4C, 0x75, 0x61, 0x51, 0x00, 0x01, 0x01, 0x01, 0x04, 0x08, 0x00,
    0x02, 0x78, 0x00, 0x00, 0x00, 0x00, 0x00, 0x02, 0x02,
    0x01, 0x1E, 0x00, 0x80, 0x00,
    0x02, 0x03, 0x00, 0x00, 0x00, 0x00, 0x00, 0x00, 0xF0, 0x3F, 0x04, 0x03, 0x68, 0x69, 0x00,
    0x01,
    0x00, 0x01, 0x02, 0x01, 0x00, 0x00, 0x01, 0x00, 0x00, 0x00, 0x00, 0x00, 0x01, 0x02, 0x75, 0x00,
    0x01, 0x03,
    0x01, 0x02, 0x61, 0x00, 0x00, 0x01,
    0x00 ]

/-- A chunk with something in every list, and with a function nested in its main function. -/
def nestedChunk : Chunk where
  header := ⟨0, 1, 1, 1, 4, 8, false⟩
  main := .node
    { source := utf8 "x", lineDefined := 0, lastLineDefined := 0, numParams := 0, isVararg := 2,
      maxStackSize := 2, code := [0x0080001E],
      constants := [.ofNumber ⟨0x3FF0000000000000⟩, .ofString (utf8 "hi")], lines := [3],
      locals := [⟨utf8 "a", 0, 1⟩], upvalues := [] }
    [ .node
        { source := [], lineDefined := 1, lastLineDefined := 2, numParams := 0, isVararg := 0,
          maxStackSize := 1, code := [], constants := [], lines := [], locals := [],
          upvalues := [⟨utf8 "u", 0, false⟩] }
        [] ]

/-- Cut inside the nested function, the bytes end too early; with a byte more they do not end. -/
theorem decode_prefixFree_nestedBytes :
    Chunk.decode nestedBytes = .ok nestedChunk ∧
      (∃ p, Chunk.decode (nestedBytes.take 50) = .error p ∧ p.IsTruncation) ∧
      Chunk.decode (nestedBytes ++ [0x00]) = .error (.trailing 1) := by
  have hdecode : Chunk.decode nestedBytes = .ok nestedChunk := by rfl
  obtain ⟨hfront, hlonger⟩ := Chunk.decode_prefixFree hdecode
  exact ⟨hdecode, hfront _ (List.take_prefix _ _) (by decide), hlonger _ ⟨[0x00], rfl⟩ (by decide)⟩

end LuaAssembly
