import Mathlib
import LuaAssembly.Proofs.Bytes.Numeral
import LuaAssembly.Proofs.Bytes.Utf8
import LuaAssembly.Project.Lock

/-!
# Lock files are read back

A lock is written as text and read by the general reader for configuration files.  The text is
followed through the reader: strings in double quotes, then lines, then the table that the lines
describe, and at last the records.  What was written is read back exactly when all its strings are
valid UTF-8; otherwise the file is refused.
-/
namespace LuaAssembly

namespace Lock

/-! ## Strings -/

/-- The bytes that follow a backslash. -/
def escapeLetters : Bytes := [0x22, 0x5C, 0x62, 0x74, 0x6E, 0x66, 0x72]

theorem escapeLetter_bounds : ∀ e ∈ escapeLetters, 0x20 ≤ e ∧ e < 0x7F := by
  decide +kernel

theorem isAscii_of_escapeLetter : ∀ e ∈ escapeLetters, ∀ b ∈ Toml.simpleEscape? e,
    Utf8.IsAscii b := by
  decide +kernel

/-- The forms in which a byte is written. -/
theorem quoteByte_cases (b : UInt8) :
    (quoteByte b = [b] ∧ 0x20 ≤ b ∧ b ≠ 0x22 ∧ b ≠ 0x5C ∧ b ≠ 0x7F) ∨
      (∃ e, quoteByte b = [0x5C, e] ∧ Toml.simpleEscape? e = some b ∧
        e ∈ escapeLetters) ∨
      (quoteByte b = 0x5C :: 0x75 :: Numeral.hex 4 b.toNat ∧ b.toNat < 128) := by
  rw [quoteByte]
  split_ifs with h₁ h₂ h₃ h₄ h₅ h₆ h₇ h₈
  · exact .inr (.inl ⟨_, rfl, by rw [h₁]; decide, by decide⟩)
  · exact .inr (.inl ⟨_, rfl, by rw [h₂]; decide, by decide⟩)
  · exact .inr (.inl ⟨_, rfl, by rw [h₃]; decide, by decide⟩)
  · exact .inr (.inl ⟨_, rfl, by rw [h₄]; decide, by decide⟩)
  · exact .inr (.inl ⟨_, rfl, by rw [h₅]; decide, by decide⟩)
  · exact .inr (.inl ⟨_, rfl, by rw [h₆]; decide, by decide⟩)
  · exact .inr (.inl ⟨_, rfl, by rw [h₇]; decide, by decide⟩)
  · refine .inr (.inr ⟨rfl, ?_⟩)
    rcases h₈ with h₈ | rfl
    · exact Nat.lt_trans (UInt8.lt_iff_toNat_lt.1 h₈) (by decide)
    · decide
  · rw [not_or] at h₈
    exact .inl ⟨rfl, UInt8.not_lt.1 h₈.1, h₁, h₂, h₈.2⟩

theorem hexScalar?_hex : ∀ n < 128,
    Toml.hexScalar? (Numeral.hex 4 n) = some [UInt8.ofNat n] := by
  decide +kernel

theorem hex_four (n : Nat) : Numeral.hex 4 n =
    [Numeral.digit (n / 16 / 16 / 16 % 16), Numeral.digit (n / 16 / 16 % 16),
      Numeral.digit (n / 16 % 16), Numeral.digit (n % 16)] := by
  simp [Numeral.hex, Numeral.fixed]

/-- Reading a byte in the form in which it is written. -/
theorem unescape_quoteByte (b : UInt8) (rest : Bytes) :
    Toml.unescape (quoteByte b ++ rest) = Toml.prepend (some [b]) (Toml.unescape rest) := by
  rcases quoteByte_cases b with ⟨hq, -, -, hb, -⟩ | ⟨e, hq, he, hmem⟩ | ⟨hq, hb⟩
  · rw [hq, List.singleton_append, Toml.unescape, if_neg hb]
    all_goals simp [hb]
  · have hescape : Toml.unescape (0x5C :: e :: rest) =
        Toml.prepend ((Toml.simpleEscape? e).map ([·])) (Toml.unescape rest) := by
      simp only [escapeLetters, List.mem_cons, List.not_mem_nil, or_false] at hmem
      rcases hmem with rfl | rfl | rfl | rfl | rfl | rfl | rfl <;> rw [Toml.unescape] <;> simp
    rw [hq, List.cons_append, List.singleton_append, hescape, he]
    rfl
  · have hscalar := hexScalar?_hex b.toNat hb
    rw [UInt8.ofNat_toNat, hex_four] at hscalar
    rw [hq, hex_four]
    simp only [List.cons_append, List.nil_append]
    rw [Toml.unescape, hscalar]

theorem unescape_quoted (s : Bytes) : Toml.unescape (s.flatMap quoteByte) = some s := by
  induction s with
  | nil => rfl
  | cons b s ih => rw [List.flatMap_cons, unescape_quoteByte, ih]; rfl

theorem mem_hex_four {n : Nat} {b : UInt8} (h : b ∈ Numeral.hex 4 n) :
    0x30 ≤ b ∧ b ≤ 0x66 ∧ b ≠ 0x5C := by
  have hdigit : ∀ v < 16, 0x30 ≤ Numeral.digit v ∧ Numeral.digit v ≤ 0x66 ∧
      Numeral.digit v ≠ 0x5C := by
    decide +kernel
  obtain ⟨v, hv, rfl⟩ := Numeral.exists_digit_of_mem_fixed (by decide) h
  exact hdigit v hv

/-- A string in quotes has no control bytes. -/
theorem mem_quoteByte {b c : UInt8} (h : c ∈ quoteByte b) : 0x20 ≤ c ∧ c ≠ 0x7F := by
  rcases quoteByte_cases b with ⟨hq, hlo, -, -, hdel⟩ | ⟨e, hq, -, hmem⟩ | ⟨hq, -⟩
  · rw [hq, List.mem_singleton] at h
    subst h
    exact ⟨hlo, hdel⟩
  · rw [hq, List.mem_cons, List.mem_singleton] at h
    rcases h with rfl | rfl
    · decide
    · have hc := escapeLetter_bounds c hmem
      exact ⟨hc.1, UInt8.ne_of_lt hc.2⟩
  · rw [hq, List.mem_cons, List.mem_cons] at h
    rcases h with rfl | rfl | h
    · decide
    · decide
    · have hc := mem_hex_four h
      refine ⟨UInt8.le_trans (by decide) hc.1, ?_⟩
      rintro rfl
      exact absurd hc.2.1 (by decide)

theorem respellsAscii_quoteByte : Utf8.RespellsAscii quoteByte where
  ne_nil b _ := by
    rcases quoteByte_cases b with ⟨hq, -⟩ | ⟨e, hq, -⟩ | ⟨hq, -⟩ <;> simp [hq]
  isAscii b hb c hc := by
    rcases quoteByte_cases b with ⟨hq, -⟩ | ⟨e, hq, -, hmem⟩ | ⟨hq, -⟩
    · rw [hq, List.mem_singleton] at hc
      rwa [hc]
    · rw [hq, List.mem_cons, List.mem_singleton] at hc
      rcases hc with rfl | rfl
      · decide
      · exact UInt8.lt_trans (escapeLetter_bounds c hmem).2 (by decide)
    · rw [hq, List.mem_cons, List.mem_cons] at hc
      rcases hc with rfl | rfl | hc
      · decide
      · decide
      · exact UInt8.lt_of_le_of_lt (mem_hex_four hc).2.1 (by decide)
  other b hb := by
    rcases quoteByte_cases b with ⟨hq, -⟩ | ⟨e, -, he, hmem⟩ | ⟨-, hlt⟩
    · exact hq
    · exact absurd (isAscii_of_escapeLetter e hmem b he) hb
    · exact absurd (UInt8.lt_iff_toNat_lt.2 hlt) hb

theorem isLineEnd_of_le {c : UInt8} (hc : 0x20 ≤ c) : Toml.isLineEnd c = false := by
  rw [Toml.isLineEnd, Bool.or_eq_false_iff, decide_eq_false_iff_not, decide_eq_false_iff_not]
  constructor
  · rintro rfl
    exact absurd hc (by decide)
  · rintro rfl
    exact absurd hc (by decide)

theorem untilQuote_plain {c : UInt8} (hlo : 0x20 ≤ c) (hquote : c ≠ 0x22) (hslash : c ≠ 0x5C)
    (before rest : Bytes) : Toml.untilQuote 0x22 true before (c :: rest) =
      Toml.untilQuote 0x22 true (c :: before) rest := by
  rw [Toml.untilQuote.eq_def]
  simp [hquote, hslash, isLineEnd_of_le hlo]

theorem untilQuote_escape {e : UInt8} (he : 0x20 ≤ e) (before rest : Bytes) :
    Toml.untilQuote 0x22 true before (0x5C :: e :: rest) =
      Toml.untilQuote 0x22 true (e :: 0x5C :: before) rest := by
  have hslash : Toml.isLineEnd 0x5C = false := by decide
  rw [Toml.untilQuote.eq_def]
  simp [isLineEnd_of_le he, hslash]

/-- A quoted byte is passed over on the way to the closing quote. -/
theorem untilQuote_quoteByte (b : UInt8) (before rest : Bytes) :
    Toml.untilQuote 0x22 true before (quoteByte b ++ rest) =
      Toml.untilQuote 0x22 true ((quoteByte b).reverse ++ before) rest := by
  rcases quoteByte_cases b with ⟨hq, hlo, hquote, hslash, -⟩ | ⟨e, hq, -, hmem⟩ | ⟨hq, -⟩
  · rw [hq, List.singleton_append, untilQuote_plain hlo hquote hslash]
    rfl
  · rw [hq, List.cons_append, List.singleton_append,
      untilQuote_escape (escapeLetter_bounds e hmem).1]
    rfl
  · have hdigit : ∀ d ∈ Numeral.hex 4 b.toNat, 0x20 ≤ d ∧ d ≠ 0x22 ∧ d ≠ 0x5C := by
      intro d hd
      obtain ⟨hlo, -, hslash⟩ := mem_hex_four hd
      refine ⟨UInt8.le_trans (by decide) hlo, ?_, hslash⟩
      rintro rfl
      exact absurd hlo (by decide)
    rw [hex_four] at hq hdigit
    simp only [List.forall_mem_cons] at hdigit
    obtain ⟨h₁, h₂, h₃, h₄, -⟩ := hdigit
    rw [hq]
    simp only [List.cons_append, List.nil_append]
    rw [untilQuote_escape (by decide), untilQuote_plain h₁.1 h₁.2.1 h₁.2.2,
      untilQuote_plain h₂.1 h₂.2.1 h₂.2.2, untilQuote_plain h₃.1 h₃.2.1 h₃.2.2,
      untilQuote_plain h₄.1 h₄.2.1 h₄.2.2]
    simp

theorem untilQuote_quoted (s before rest : Bytes) :
    Toml.untilQuote 0x22 true before (s.flatMap quoteByte ++ 0x22 :: rest) =
      some (before.reverse ++ s.flatMap quoteByte, rest) := by
  induction s generalizing before with
  | nil =>
    rw [List.flatMap_nil, List.nil_append, Toml.untilQuote.eq_def]
    simp
  | cons b s ih =>
    rw [List.flatMap_cons, List.append_assoc, untilQuote_quoteByte, ih]
    simp

/-- A string in double quotes is read back.  On a line of its own it is not taken for the start of
a string over several lines. -/
theorem anyString?_quoted (s rest : Bytes) :
    Toml.anyString? 0x22 (s.flatMap quoteByte ++ 0x22 :: 0x0A :: rest) =
      some (s, 0x0A :: rest) := by
  have hshort : Toml.shortString? 0x22 (s.flatMap quoteByte ++ 0x22 :: 0x0A :: rest) =
      some (s, 0x0A :: rest) := by
    rw [Toml.shortString?]
    simp [Toml.doubleQuote, untilQuote_quoted, unescape_quoted]
  cases s with
  | nil => exact hshort
  | cons b s =>
    obtain ⟨c, cs, hq, hc⟩ : ∃ c cs, quoteByte b = c :: cs ∧ c ≠ 0x22 := by
      rcases quoteByte_cases b with ⟨hq, -, hquote, -⟩ | ⟨e, hq, -⟩ | ⟨hq, -⟩
      · exact ⟨_, _, hq, hquote⟩
      · exact ⟨_, _, hq, by decide⟩
      · exact ⟨_, _, hq, by decide⟩
    -- the byte behind the first quote is no quote
    obtain ⟨d, ds, hd⟩ : ∃ d ds, cs ++ (s.flatMap quoteByte ++ 0x22 :: 0x0A :: rest) = d :: ds :=
      List.exists_cons_of_ne_nil (by simp)
    rw [List.flatMap_cons, hq, List.append_assoc, List.cons_append, hd] at hshort ⊢
    rw [Toml.anyString?, if_neg (fun h => hc h.1), hshort]

/-! ## Lines -/

theorem value?_quoted (fuel : Nat) (s rest : Bytes) :
    Toml.value? (fuel + 1) (0x22 :: (s.flatMap quoteByte ++ 0x22 :: 0x0A :: rest)) =
      some (.string s, 0x0A :: rest) := by
  have hdigit : Bytes.isDigit 0x22 = false := by decide
  rw [Toml.value?]
  simp [hdigit, Toml.doubleQuote, anyString?_quoted]

/-- A key that needs no quotes. -/
def IsKeyWord (w : Bytes) : Prop :=
  w ≠ [] ∧ ∀ b ∈ w, Toml.isKeyByte b = true

instance (w : Bytes) : Decidable (IsKeyWord w) := inferInstanceAs (Decidable (_ ∧ _))

/-- The keys of a lock file. -/
theorem isKeyWord_of_mem : ∀ key ∈ ["unit", "source", "source-digest", "output", "output-digest"],
    IsKeyWord (utf8 key) := by
  decide +kernel

theorem isKeyByte_spec {b : UInt8} (h : Toml.isKeyByte b = true) :
    Toml.isBlankByte b = false ∧ Toml.isLineEnd b = false ∧
      b ≠ 0x23 ∧ b ≠ 0x5B ∧ b ≠ 0x22 ∧ b ≠ 0x27 := by
  have hne : ∀ c : UInt8, Toml.isKeyByte c = false → b ≠ c := by
    rintro c hc rfl
    simp [h] at hc
  refine ⟨?_, ?_, hne _ (by decide), hne _ (by decide), hne _ (by decide), hne _ (by decide)⟩
  · simp [Toml.isBlankByte, hne 0x20 (by decide), hne 0x09 (by decide)]
  · simp [Toml.isLineEnd, hne 0x0A (by decide), hne 0x0D (by decide)]

theorem isKeyByte_bounds {b : UInt8} (h : Toml.isKeyByte b = true) : 0x2D ≤ b ∧ b ≤ 0x7A := by
  simp only [Toml.isKeyByte, Bytes.isDigit, Bool.or_eq_true, Bool.and_eq_true, decide_eq_true_eq,
    UInt8.le_iff_toNat_le] at h ⊢
  rcases h with (((h | h) | h) | rfl) | rfl
  · exact ⟨le_trans (by decide) h.1, le_trans h.2 (by decide)⟩
  · exact ⟨le_trans (by decide) h.1, h.2⟩
  · exact ⟨le_trans (by decide) h.1, le_trans h.2 (by decide)⟩
  · decide
  · decide

/-- A key without quotes is read up to the first byte that cannot belong to it. -/
theorem key?_word {w : Bytes} (hw : IsKeyWord w) (fuel : Nat) {c : UInt8} (rest : Bytes)
    (hc : Toml.isKeyByte c = false) (hdot : ∀ more, Toml.skipBlanks (c :: rest) ≠ 0x2E :: more) :
    Toml.key? (fuel + 1) (w ++ c :: rest) = some ([w], Toml.skipBlanks (c :: rest)) := by
  obtain ⟨b, bs, rfl⟩ := List.exists_cons_of_ne_nil hw.1
  have hb := isKeyByte_spec (hw.2 b (List.mem_cons_self ..))
  have hstart : Toml.skipBlanks (b :: bs ++ c :: rest) = b :: bs ++ c :: rest := by
    simp [Toml.skipBlanks, hb.1]
  have htake : (b :: bs ++ c :: rest).takeWhile Toml.isKeyByte = b :: bs := by
    rw [List.takeWhile_append_of_pos hw.2, List.takeWhile_cons, hc]
    simp
  have hsegment : Toml.segment? (b :: bs ++ c :: rest) = some (b :: bs, c :: rest) := by
    have hquote : ¬(b = Toml.doubleQuote ∨ b = Toml.singleQuote) :=
      not_or.2 ⟨hb.2.2.2.2.1, hb.2.2.2.2.2⟩
    rw [List.cons_append, Toml.segment?, if_neg hquote]
    rw [List.cons_append] at htake
    simp [htake]
  rw [Toml.key?, hstart, hsegment]
  simp only

/-- A line that gives a key a string. -/
theorem line?_assign {w : Bytes} (hw : IsKeyWord w) (v rest : Bytes) :
    Toml.line? (w ++ 0x20 :: 0x3D :: 0x20 :: 0x22 ::
      (v.flatMap quoteByte ++ 0x22 :: 0x0A :: rest)) =
      some (.assign [w] (.string v), 0x0A :: rest) := by
  have hkey : ∀ fuel more, Toml.key? (fuel + 1) (w ++ 0x20 :: 0x3D :: more) =
      some ([w], 0x3D :: more) := by
    intro fuel more
    have hskip : Toml.skipBlanks (0x20 :: 0x3D :: more) = 0x3D :: more := by
      simp [Toml.skipBlanks, Toml.isBlankByte]
    rw [key?_word hw fuel _ (by decide) (by simp [hskip]), hskip]
  have hvalue : ∀ more, Toml.skipBlanks (0x20 :: 0x22 :: more) = 0x22 :: more := by
    intro more
    simp [Toml.skipBlanks, Toml.isBlankByte]
  obtain ⟨b, bs, rfl⟩ := List.exists_cons_of_ne_nil hw.1
  have hb := isKeyByte_spec (hw.2 b (List.mem_cons_self ..))
  simp only [List.cons_append] at hkey ⊢
  rw [Toml.line?, if_neg hb.2.2.2.1, Toml.assignment?, hkey]
  simp only [hvalue, value?_quoted, Option.map_some]

/-- The line that opens a record. -/
theorem line?_unit (rest : Bytes) : Toml.line? (utf8 "[[unit]]" ++ 0x0A :: rest) =
    some (.element [utf8 "unit"], 0x0A :: rest) := by
  have hkey : ∀ fuel, Toml.key? (fuel + 1) (utf8 "unit" ++ 0x5D :: 0x5D :: 0x0A :: rest) =
      some ([utf8 "unit"], 0x5D :: 0x5D :: 0x0A :: rest) := by
    intro fuel
    have hskip : Toml.skipBlanks (0x5D :: 0x5D :: 0x0A :: rest) = 0x5D :: 0x5D :: 0x0A :: rest := by
      simp [Toml.skipBlanks, Toml.isBlankByte]
    rw [key?_word (isKeyWord_of_mem _ (by simp)) fuel _ (by decide) (by simp [hskip]), hskip]
  have htext : utf8 "[[unit]]" ++ 0x0A :: rest =
      0x5B :: 0x5B :: (utf8 "unit" ++ 0x5D :: 0x5D :: 0x0A :: rest) := by
    rw [show utf8 "[[unit]]" = 0x5B :: 0x5B :: (utf8 "unit" ++ [0x5D, 0x5D]) by
      decide +kernel]
    simp
  rw [htext, Toml.line?, if_pos rfl, Toml.header?, hkey]
  rfl

theorem skipGap_skipGap (comment : Bool) (bs : Bytes) :
    Toml.skipGap false (Toml.skipGap comment bs) = Toml.skipGap comment bs := by
  induction bs generalizing comment with
  | nil => rfl
  | cons b bs ih =>
    rw [Toml.skipGap]
    split_ifs with hcomment hgap hhash
    · exact ih _
    · exact ih _
    · exact ih _
    · rw [Toml.skipGap]
      simp [hgap, hhash]

/-- Gaps in front of a line do not matter. -/
theorem lines?_skipGap (fuel : Nat) (bs : Bytes) :
    Toml.lines? fuel (Toml.skipGap false bs) = Toml.lines? fuel bs := by
  cases fuel with
  | zero => rfl
  | succ fuel => rw [Toml.lines?, Toml.lines?, skipGap_skipGap]

theorem lines?_cons_gap (fuel : Nat) {b : UInt8} (hb : b = 0x20 ∨ b = 0x0A) (bs : Bytes) :
    Toml.lines? fuel (b :: bs) = Toml.lines? fuel bs := by
  rw [← lines?_skipGap fuel (b :: bs), ← lines?_skipGap fuel bs, Toml.skipGap]
  rcases hb with rfl | rfl <;> simp [Toml.isBlankByte, Toml.isLineEnd]

/-- The first line is read, and then the others. -/
theorem lines?_cons (fuel : Nat) {b : UInt8} {bs rest : Bytes} {l : Toml.Line}
    (hgap : (Toml.isBlankByte b || Toml.isLineEnd b) = false) (hhash : b ≠ 0x23)
    (hline : Toml.line? (b :: bs) = some (l, 0x0A :: rest)) :
    Toml.lines? (fuel + 1) (b :: bs) = (Toml.lines? fuel rest).map (l :: ·) := by
  have hskip : Toml.skipGap false (b :: bs) = b :: bs := by
    rw [Toml.skipGap]
    simp [hgap, hhash]
  have hend : Toml.lineEnd? (0x0A :: rest) = some (Toml.skipGap false rest) := by
    simp [Toml.lineEnd?, Toml.skipBlanks, Toml.isBlankByte, Toml.isLineEnd]
  rw [Toml.lines?, hskip]
  simp only [hline, hend, lines?_skipGap]

/-- The text of one setting of a record is one line. -/
theorem lines?_line (fuel : Nat) {key : String} (hkey : IsKeyWord (utf8 key)) (v rest : Bytes) :
    Toml.lines? (fuel + 1) (line key v ++ rest) =
      (Toml.lines? fuel rest).map (.assign [utf8 key] (.string v) :: ·) := by
  have htext : line key v ++ rest = 0x20 :: 0x20 :: (utf8 key ++ 0x20 :: 0x3D :: 0x20 :: 0x22 ::
      (v.flatMap quoteByte ++ 0x22 :: 0x0A :: rest)) := by
    rw [line, show utf8 "  " = [0x20, 0x20] by decide,
      show utf8 " = \"" = [0x20, 0x3D, 0x20, 0x22] by decide,
      show utf8 "\"\n" = [0x22, 0x0A] by decide]
    simp
  rw [htext, lines?_cons_gap _ (.inl rfl), lines?_cons_gap _ (.inl rfl)]
  have hline := line?_assign hkey v rest
  obtain ⟨b, bs, hb⟩ := List.exists_cons_of_ne_nil hkey.1
  have hspec := isKeyByte_spec (hkey.2 b (by simp [hb]))
  rw [hb, List.cons_append] at hline ⊢
  exact lines?_cons fuel (by rw [hspec.1, hspec.2.1]; rfl) hspec.2.2.1 hline

/-- The lines of a record. -/
def recordLines (u : LockedUnit) : List Toml.Line :=
  [ .element [utf8 "unit"], .assign [utf8 "source"] (.string u.source),
    .assign [utf8 "source-digest"] (.string u.sourceDigest),
    .assign [utf8 "output"] (.string u.output),
    .assign [utf8 "output-digest"] (.string u.outputDigest) ]

theorem lines?_block (fuel : Nat) (u : LockedUnit) (rest : Bytes) :
    Toml.lines? (fuel + 5) (block u ++ rest) =
      (Toml.lines? fuel rest).map (recordLines u ++ ·) := by
  have hunit : ∀ more, Toml.lines? (fuel + 4 + 1) (utf8 "[[unit]]" ++ 0x0A :: more) =
      (Toml.lines? (fuel + 4) more).map (.element [utf8 "unit"] :: ·) := by
    intro more
    have hline := line?_unit more
    rw [show utf8 "[[unit]]" = 0x5B :: utf8 "[unit]]" by decide +kernel,
      List.cons_append] at hline ⊢
    exact lines?_cons _ (by decide) (by decide) hline
  rw [block, show utf8 "[[unit]]\n" = utf8 "[[unit]]" ++ [0x0A] by decide +kernel]
  simp only [List.append_assoc, List.cons_append, List.nil_append]
  rw [hunit, lines?_line _ (isKeyWord_of_mem _ (by simp)),
    lines?_line _ (isKeyWord_of_mem _ (by simp)), lines?_line _ (isKeyWord_of_mem _ (by simp)),
    lines?_line _ (isKeyWord_of_mem _ (by simp))]
  simp only [Option.map_map]
  rfl

theorem length_block (u : LockedUnit) : 5 ≤ (block u).length := by
  rw [block, show utf8 "[[unit]]\n" = [0x5B, 0x5B, 0x75, 0x6E, 0x69] ++ utf8 "t]]\n" by
    decide +kernel]
  simp only [List.length_append, List.length_cons, List.length_nil]
  omega

theorem toFile_cons_cons (u v : LockedUnit) (vs : List LockedUnit) :
    toFile ⟨u :: v :: vs⟩ = block u ++ 0x0A :: toFile ⟨v :: vs⟩ := by
  rw [toFile, toFile, List.map_cons, List.map_cons, Bytes.join, show utf8 "\n" = [0x0A] by decide]
  · simp
  · simp

theorem lines?_toFile (fuel : Nat) (us : List LockedUnit) :
    Toml.lines? (fuel + 5 * us.length + 1) (toFile ⟨us⟩) = some (us.flatMap recordLines) := by
  induction us generalizing fuel with
  | nil => rfl
  | cons u us ih =>
    have hfuel : fuel + 5 * (u :: us).length + 1 = fuel + 5 * us.length + 1 + 5 := by
      rw [List.length_cons]
      omega
    rw [hfuel]
    cases us with
    | nil =>
      have hblock := lines?_block (fuel + 1) u []
      rw [List.append_nil] at hblock
      rw [toFile]
      simpa [Bytes.join, Toml.lines?, Toml.skipGap] using hblock
    | cons v vs =>
      rw [toFile_cons_cons, lines?_block, lines?_cons_gap _ (.inr rfl), ih]
      simp

/-! ## Records -/

/-- The table of a record. -/
def recordTable (u : LockedUnit) : Toml.Table :=
  [ (utf8 "source", .string u.source), (utf8 "source-digest", .string u.sourceDigest),
    (utf8 "output", .string u.output), (utf8 "output-digest", .string u.outputDigest) ]

/-- What has been made of a lock file when the last table of its array is open. -/
def lockBuilding (ts : List Toml.Table) : Toml.Building :=
  ⟨[(utf8 "unit", .tables ts)], [utf8 "unit"], [], []⟩

/-- A new record is a new table at the end of the array. -/
theorem follow?_element (ts : List Toml.Table) :
    (lockBuilding ts).follow? (.element [utf8 "unit"]) = some (lockBuilding (ts ++ [[]])) := by
  simp [Toml.Building.follow?, Toml.Building.openElement?, Toml.Building.prepare?, lockBuilding,
    Toml.Building.changeOpen?, Toml.Table.change?, Toml.Building.grow, Toml.Table.insert,
    Toml.Building.noteKind]

theorem follow?_first_element :
    Toml.Building.empty.follow? (.element [utf8 "unit"]) = some (lockBuilding [[]]) := rfl

/-- A setting goes to the end of the last table. -/
theorem follow?_assign (ts : List Toml.Table) {t : Toml.Table} {w : Bytes}
    (hw : t.lookup w = none) (v : Bytes) :
    (lockBuilding (ts ++ [t])).follow? (.assign [w] (.string v)) =
      some (lockBuilding (ts ++ [t ++ [(w, .string v)]])) := by
  have hinsert : ∀ t : Toml.Table, t.lookup w = none →
      t.insert w (.string v) = t ++ [(w, .string v)] := by
    intro t ht
    induction t with
    | nil => rfl
    | cons e t ih =>
      rw [List.lookup_cons] at ht
      split at ht
      · cases ht
      · next hne =>
        have he : e.1 ≠ w := fun h => by simp [h] at hne
        rw [Toml.Table.insert, if_neg he, ih ht, List.cons_append]
  simp [Toml.Building.follow?, Toml.evaluateEntries, Toml.Building.openAlong?, Toml.evaluate,
    Toml.Building.set?, lockBuilding, Toml.Table.at?, Toml.Table.inside?, hw,
    Toml.Building.changeOpen?, Toml.Table.change?, Toml.Table.replaceInside, Toml.Table.insert,
    Toml.insertAlong?, Toml.Building.noteKind, Toml.Value.isArray, hinsert t hw]

theorem foldlM_recordLines {b : Toml.Building} {ts : List Toml.Table}
    (hopen : b.follow? (.element [utf8 "unit"]) = some (lockBuilding (ts ++ [[]])))
    (u : LockedUnit) : (recordLines u).foldlM Toml.Building.follow? b =
      some (lockBuilding (ts ++ [recordTable u])) := by
  simp only [recordLines, List.foldlM_cons, List.foldlM_nil, hopen, Option.bind_eq_bind,
    Option.bind_some]
  rw [follow?_assign _ rfl, Option.bind_some, follow?_assign _ rfl, Option.bind_some,
    follow?_assign _ rfl, Option.bind_some, follow?_assign _ rfl, Option.bind_some]
  rfl

theorem foldlM_flatMap_recordLines (ts : List Toml.Table) (us : List LockedUnit) :
    (us.flatMap recordLines).foldlM Toml.Building.follow? (lockBuilding ts) =
      some (lockBuilding (ts ++ us.map recordTable)) := by
  induction us generalizing ts with
  | nil => simp
  | cons u us ih =>
    rw [List.flatMap_cons, List.foldlM_append, foldlM_recordLines (follow?_element ts)]
    simp [ih]

/-- The table that the lines of a lock describe. -/
theorem tableOf?_recordLines (us : List LockedUnit) : Toml.tableOf? (us.flatMap recordLines) =
    some (if us = [] then [] else [(utf8 "unit", .tables (us.map recordTable))]) := by
  cases us with
  | nil => rfl
  | cons u us =>
    have hfirst : (recordLines u).foldlM Toml.Building.follow? .empty =
        some (lockBuilding ([] ++ [recordTable u])) :=
      foldlM_recordLines follow?_first_element u
    rw [Toml.tableOf?, List.flatMap_cons, List.foldlM_append, hfirst, Option.bind_eq_bind,
      Option.bind_some, foldlM_flatMap_recordLines, if_neg (List.cons_ne_nil _ _)]
    rfl

theorem fill_recordTable (u : LockedUnit) :
    Toml.Setting.fill unitSettings (recordTable u) ⟨[], [], [], []⟩ = some u := rfl

theorem fill_records (us : List LockedUnit) :
    Toml.Setting.fill settings
      (if us = [] then [] else [(utf8 "unit", .tables (us.map recordTable))]) ⟨[]⟩ =
      some ⟨us⟩ := by
  have hall : ∀ us : List LockedUnit, (us.map recordTable).mapM
      (Toml.Setting.fill unitSettings · ⟨[], [], [], []⟩) = some us := by
    intro us
    induction us with
    | nil => rfl
    | cons u us ih => simp [List.mapM_cons, fill_recordTable, ih]
  cases us with
  | nil => rfl
  | cons u us =>
    have happly : Toml.Setting.fill settings [(utf8 "unit", .tables ((u :: us).map recordTable))]
        ⟨[]⟩ = (((u :: us).map recordTable).mapM
          (Toml.Setting.fill unitSettings · ⟨[], [], [], []⟩)).map (⟨·⟩) >>= some := rfl
    rw [if_neg (List.cons_ne_nil _ _), happly, hall]
    rfl

/-! ## Files -/

theorem controlsAllowed_of_forall {bs : Bytes}
    (h : ∀ b ∈ bs, b = 0x0A ∨ (0x20 ≤ b ∧ b ≠ 0x7F)) : Toml.controlsAllowed bs = true := by
  induction bs with
  | nil => rfl
  | cons b bs ih =>
    rw [List.forall_mem_cons] at h
    have hreturn : b ≠ 0x0D := by
      rintro rfl
      exact absurd h.1 (by decide)
    rw [Toml.controlsAllowed, ih h.2]
    · rcases h.1 with rfl | ⟨hlo, hdel⟩
      · rfl
      · simp [hlo, hdel]
    · exact hreturn

/-- All strings of a record are valid UTF-8. -/
def ValidRecord (u : LockedUnit) : Prop :=
  Utf8.isValid u.source = true ∧ Utf8.isValid u.sourceDigest = true ∧
    Utf8.isValid u.output = true ∧ Utf8.isValid u.outputDigest = true

instance (u : LockedUnit) : Decidable (ValidRecord u) := inferInstanceAs (Decidable (_ ∧ _))

theorem isValid_line_append {key : String} (hkey : IsKeyWord (utf8 key)) (v : Bytes)
    {rest : Bytes} : Utf8.isValid (line key v ++ rest) = (Utf8.isValid v && Utf8.isValid rest) := by
  have hkeyAscii : ∀ b ∈ utf8 key, Utf8.IsAscii b := fun b hb =>
    UInt8.lt_of_le_of_lt (isKeyByte_bounds (hkey.2 b hb)).2 (by decide)
  have hascii : ∀ s ∈ ["  ", " = \"", "\"\n"], ∀ b ∈ utf8 s, Utf8.IsAscii b := by decide +kernel
  have hstarts : Utf8.StartsAscii (utf8 "\"\n" ++ rest) := by
    rw [show utf8 "\"\n" = [0x22, 0x0A] by decide]
    intro b hb
    obtain rfl := Option.some.inj hb
    decide
  rw [line]
  simp only [List.append_assoc]
  rw [Utf8.isValid_append_of_isAscii (hascii _ (by simp)), Utf8.isValid_append_of_isAscii hkeyAscii,
    Utf8.isValid_append_of_isAscii (hascii _ (by simp)),
    respellsAscii_quoteByte.isValid_flatMap_append v hstarts,
    Utf8.isValid_append_of_isAscii (hascii _ (by simp))]

theorem isValid_block_append_iff (u : LockedUnit) (rest : Bytes) :
    Utf8.isValid (block u ++ rest) = true ↔ ValidRecord u ∧ Utf8.isValid rest = true := by
  have hheader : ∀ b ∈ utf8 "[[unit]]\n", Utf8.IsAscii b := by decide +kernel
  rw [block]
  simp only [List.append_assoc]
  rw [Utf8.isValid_append_of_isAscii hheader, isValid_line_append (isKeyWord_of_mem _ (by simp)),
    isValid_line_append (isKeyWord_of_mem _ (by simp)),
    isValid_line_append (isKeyWord_of_mem _ (by simp)),
    isValid_line_append (isKeyWord_of_mem _ (by simp))]
  simp only [ValidRecord, Bool.and_eq_true, and_assoc]

/-- The text of a lock is valid if all its strings are. -/
theorem isValid_toFile_iff (us : List LockedUnit) :
    Utf8.isValid (toFile ⟨us⟩) = true ↔ ∀ u ∈ us, ValidRecord u := by
  induction us with
  | nil => simp [toFile, Bytes.join, Utf8.isValid_nil]
  | cons u us ih =>
    rw [List.forall_mem_cons]
    cases us with
    | nil =>
      have hblock := isValid_block_append_iff u []
      rw [List.append_nil] at hblock
      simpa [toFile, Bytes.join, Utf8.isValid_nil] using hblock
    | cons v vs =>
      rw [toFile_cons_cons, isValid_block_append_iff, Utf8.isValid_cons_of_isAscii (by decide), ih]

theorem mem_line {key : String} (hkey : IsKeyWord (utf8 key)) {v : Bytes} {b : UInt8}
    (hb : b ∈ line key v) : b = 0x0A ∨ (0x20 ≤ b ∧ b ≠ 0x7F) := by
  have hplain : ∀ s ∈ ["  ", " = \"", "\"\n"], ∀ b ∈ utf8 s, b = 0x0A ∨ (0x20 ≤ b ∧ b ≠ 0x7F) := by
    decide +kernel
  simp only [line, List.mem_append, List.mem_flatMap] at hb
  rcases hb with (((hb | hb) | hb) | ⟨c, -, hb⟩) | hb
  · exact hplain "  " (by simp) b hb
  · have hbounds := isKeyByte_bounds (hkey.2 b hb)
    refine .inr ⟨UInt8.le_trans (by decide) hbounds.1, ?_⟩
    rintro rfl
    exact absurd hbounds.2 (by decide)
  · exact hplain " = \"" (by simp) b hb
  · exact .inr (mem_quoteByte hb)
  · exact hplain "\"\n" (by simp) b hb

theorem mem_block {u : LockedUnit} {b : UInt8} (hb : b ∈ block u) :
    b = 0x0A ∨ (0x20 ≤ b ∧ b ≠ 0x7F) := by
  have hunit : ∀ b ∈ utf8 "[[unit]]\n", b = 0x0A ∨ (0x20 ≤ b ∧ b ≠ 0x7F) := by decide +kernel
  simp only [block, List.mem_append] at hb
  rcases hb with (((hb | hb) | hb) | hb) | hb
  · exact hunit b hb
  · exact mem_line (isKeyWord_of_mem _ (by simp)) hb
  · exact mem_line (isKeyWord_of_mem _ (by simp)) hb
  · exact mem_line (isKeyWord_of_mem _ (by simp)) hb
  · exact mem_line (isKeyWord_of_mem _ (by simp)) hb

theorem mem_toFile {us : List LockedUnit} {b : UInt8} (hb : b ∈ toFile ⟨us⟩) :
    b = 0x0A ∨ (0x20 ≤ b ∧ b ≠ 0x7F) := by
  induction us with
  | nil => simp [toFile, Bytes.join] at hb
  | cons u us ih =>
    cases us with
    | nil => exact mem_block (by simpa [toFile, Bytes.join] using hb)
    | cons v vs =>
      rw [toFile_cons_cons, List.mem_append, List.mem_cons] at hb
      rcases hb with hb | rfl | hb
      · exact mem_block hb
      · exact .inl rfl
      · exact ih hb

theorem length_toFile (us : List LockedUnit) : 5 * us.length ≤ (toFile ⟨us⟩).length := by
  induction us with
  | nil => simp
  | cons u us ih =>
    have hblock := length_block u
    cases us with
    | nil => simpa [toFile, Bytes.join] using hblock
    | cons v vs =>
      rw [toFile_cons_cons]
      simp only [List.length_append, List.length_cons] at ih ⊢
      omega

theorem exists_toFile_cons_eq (u : LockedUnit) (us : List LockedUnit) :
    ∃ rest, toFile ⟨u :: us⟩ = utf8 "[[unit]]" ++ [0x0A] ++ rest := by
  have hheader : utf8 "[[unit]]\n" = utf8 "[[unit]]" ++ [0x0A] := by decide +kernel
  have hblock : ∃ rest, block u = utf8 "[[unit]]" ++ [0x0A] ++ rest := by
    rw [block, hheader]
    simp only [List.append_assoc]
    exact ⟨_, rfl⟩
  obtain ⟨rest, hrest⟩ := hblock
  cases us with
  | nil => exact ⟨rest, by simpa [toFile, Bytes.join] using hrest⟩
  | cons v vs => exact ⟨_, by rw [toFile_cons_cons, hrest, List.append_assoc]⟩

theorem withoutMark_toFile (us : List LockedUnit) :
    Toml.withoutMark (toFile ⟨us⟩) = toFile ⟨us⟩ := by
  cases us with
  | nil => rfl
  | cons u us =>
    obtain ⟨rest, hrest⟩ := exists_toFile_cons_eq u us
    rw [hrest, show utf8 "[[unit]]" = 0x5B :: utf8 "[unit]]" by decide +kernel]
    rfl

/-- A lock is read back from its text if its strings are valid UTF-8, and refused otherwise. -/
theorem ofFile?_toFile (us : List LockedUnit) :
    ofFile? (toFile ⟨us⟩) = if ∀ u ∈ us, ValidRecord u then some ⟨us⟩ else none := by
  have hcontrols : Toml.controlsAllowed (toFile ⟨us⟩) = true :=
    controlsAllowed_of_forall fun b hb => mem_toFile hb
  rw [ofFile?, Toml.Setting.load?, Toml.read?, withoutMark_toFile, hcontrols, Bool.true_and]
  split_ifs with hvalid hall hall
  · obtain ⟨fuel, hfuel⟩ := Nat.exists_eq_add_of_le' (length_toFile us)
    rw [hfuel, lines?_toFile, Option.bind_some, tableOf?_recordLines]
    exact fill_records us
  · exact absurd ((isValid_toFile_iff us).1 hvalid) hall
  · exact absurd ((isValid_toFile_iff us).2 hall) hvalid
  · rfl

end Lock

end LuaAssembly
