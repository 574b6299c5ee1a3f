import Mathlib
import LuaAssembly.Proofs.Bytes.Numeral
import LuaAssembly.Source.Literal

/-!
# Quoted byte strings are read back

`quote` writes every byte in one of three forms: as itself, as a backslash with a letter, or as a
backslash with three decimal digits.  Reading is followed through the three forms, and the closing
quote is found because none of them ends with a quote that counts.
-/
namespace LuaAssembly.Literal

/-- The forms in which a byte is written. -/
theorem quoteByte_cases (b : UInt8) :
    (quoteByte b = [b] ∧ b ≠ 0x22 ∧ b ≠ 0x5C ∧ b ≠ 0x0A) ∨
      (∃ e, quoteByte b = [0x5C, e] ∧ simpleEscape? e = some b ∧ e ≠ 0x0A) ∨
      quoteByte b = 0x5C :: Numeral.fixed 10 3 b.toNat := by
  rw [quoteByte]
  split_ifs with h₁ h₂ h₃ h₄ h₅ h₆
  · exact .inr (.inl ⟨_, rfl, by rw [h₁]; decide, by decide⟩)
  · exact .inr (.inl ⟨_, rfl, by rw [h₂]; decide, by decide⟩)
  · exact .inr (.inl ⟨_, rfl, by rw [h₃]; decide, by decide⟩)
  · exact .inr (.inl ⟨_, rfl, by rw [h₄]; decide, by decide⟩)
  · exact .inr (.inl ⟨_, rfl, by rw [h₅]; decide, by decide⟩)
  · exact .inl ⟨rfl, h₁, h₂, h₃⟩
  · exact .inr (.inr rfl)

theorem fixed_ten_three (n : Nat) :
    Numeral.fixed 10 3 n =
      [Numeral.digit (n / 10 / 10 % 10), Numeral.digit (n / 10 % 10), Numeral.digit (n % 10)] := by
  simp [Numeral.fixed]

theorem isDigit_digit {v : Nat} (hv : v < 10) : Bytes.isDigit (Numeral.digit v) := by
  rw [Numeral.isDigit_iff, Numeral.digit_toNat hv]
  omega

theorem simpleEscape?_digit : ∀ v < 10,
    simpleEscape? (Numeral.digit v) = none ∧ Numeral.digit v ≠ 0x78 := by
  decide

theorem decimalEscape_fixed (b : UInt8) :
    decimalEscape (Numeral.fixed 10 3 b.toNat) = .ok b := by
  have hb := b.toNat_lt
  have hvalue : (Numeral.fixed 10 3 b.toNat).foldl (fun acc b => acc * 10 + digitValue b) 0 =
      b.toNat := by
    rw [fixed_ten_three]
    simp only [List.foldl_cons, List.foldl_nil, digitValue]
    rw [Numeral.digit_toNat (by omega), Numeral.digit_toNat (by omega),
      Numeral.digit_toNat (by omega)]
    omega
  rw [decimalEscape, hvalue, if_pos (by omega), UInt8.ofNat_toNat]

/-- Reading a byte in the form in which it is written. -/
theorem unescape_quoteByte (b : UInt8) (rest : Bytes) :
    unescape (quoteByte b ++ rest) = consByte (.ok b) (unescape rest) := by
  rcases quoteByte_cases b with ⟨hq, h₁, h₂, -⟩ | ⟨e, hq, he, -⟩ | hq
  · rw [hq, List.singleton_append, unescape.eq_def]
    simp only [h₁, if_false, if_pos h₂]
  · rw [hq, List.cons_append, List.singleton_append, unescape.eq_def]
    simp [he]
  · have hdecimal := decimalEscape_fixed b
    rw [hq, fixed_ten_three] at *
    have hd₁ : b.toNat / 10 / 10 % 10 < 10 := Nat.mod_lt _ (by decide)
    have hd₂ : b.toNat / 10 % 10 < 10 := Nat.mod_lt _ (by decide)
    have hd₃ : b.toNat % 10 < 10 := Nat.mod_lt _ (by decide)
    obtain ⟨hsimple, hx⟩ := simpleEscape?_digit _ hd₁
    rw [List.cons_append, unescape.eq_def]
    simp [hsimple, hx, isDigit_digit hd₁, isDigit_digit hd₂, isDigit_digit hd₃, hdecimal]

theorem unescape_quoted (s : Bytes) : unescape (s.flatMap quoteByte) = .ok s := by
  induction s with
  | nil => rfl
  | cons b s ih => rw [List.flatMap_cons, unescape_quoteByte, ih]; rfl

theorem body?_append_quote (bs : Bytes) : body? (bs ++ [0x22]) = some bs := by
  induction bs with
  | nil => rfl
  | cons b bs ih =>
    obtain ⟨c, cs, hc⟩ : ∃ c cs, bs ++ [0x22] = c :: cs := by
      cases bs <;> exact ⟨_, _, rfl⟩
    rw [List.cons_append, hc, body?, ← hc, ih]
    · rfl
    · rintro ⟨⟩

/-- Reading the literal of a byte string gives the byte string back. -/
theorem unquote_quote (s : Bytes) : unquote (quote s) = .ok s := by
  rw [quote, unquote, if_pos rfl, body?_append_quote]
  exact unescape_quoted s

/-- A literal stays on one line. -/
theorem newline_not_mem_quote (s : Bytes) : 0x0A ∉ quote s := by
  have hbyte : ∀ b : UInt8, 0x0A ∉ quoteByte b := by
    intro b
    rcases quoteByte_cases b with ⟨hq, -, -, hb⟩ | ⟨e, hq, -, he⟩ | hq
    · simpa [hq] using hb.symm
    · simpa [hq] using he.symm
    · have hdigit : ∀ v < 10, (0x0A : UInt8) ≠ Numeral.digit v := by decide
      rw [hq, fixed_ten_three]
      simp [hdigit, Nat.mod_lt]
  simp [quote, hbyte]

end LuaAssembly.Literal
