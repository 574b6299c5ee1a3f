import Mathlib
import LuaAssembly.Proofs.Number.Ratio

/-!
# Rounding to a binary format

The rationals that round to the value with a given code are those in an interval around it.  The
main statement is that `Ratio.toBinary` finds the code of whatever interval a ratio lies in; a
value of the format lies in its own interval, so conversion of a value that the format has is
exact.
-/
namespace LuaAssembly

namespace BinaryFormat

variable {F : BinaryFormat}

/-- The value with the given code. -/
def value (F : BinaryFormat) (code : Nat) : ℚ :=
  (F.decompose code).1 * 2 ^ (F.decompose code).2

/-- How far the rationals below a value that still round to it reach, in units of its last digit.
Below a power of two the next value is only half as far away. -/
def reach (F : BinaryFormat) (code : Nat) : ℚ :=
  if (F.decompose code).1 = 2 ^ F.fractionBits ∧ F.minExponent < (F.decompose code).2 then 1 / 4
  else 1 / 2

/-- The rational rounds to the value with the given code.  The ends of the interval belong to it
when the last digit of the value is even. -/
def Rounds (F : BinaryFormat) (code : Nat) (x : ℚ) : Prop :=
  ((F.decompose code).1 - F.reach code) * 2 ^ (F.decompose code).2 ≤ x ∧
    x ≤ ((F.decompose code).1 + 1 / 2) * 2 ^ (F.decompose code).2 ∧
    ((F.decompose code).1 % 2 = 1 →
      ((F.decompose code).1 - F.reach code) * 2 ^ (F.decompose code).2 < x ∧
        x < ((F.decompose code).1 + 1 / 2) * 2 ^ (F.decompose code).2)

/-! ## Codes and their digits -/

/-- The digits and the exponent behind a code: the code counts values upwards, a whole binade for
each exponent. -/
theorem decompose_spec (F : BinaryFormat) (code : Nat) :
    ∃ (m k : Nat), F.decompose code = (m, F.minExponent + k) ∧ code = k * 2 ^ F.fractionBits + m ∧
      m < 2 * 2 ^ F.fractionBits ∧ (2 ^ F.fractionBits ≤ m ∨ k = 0) := by
  have hpos : 0 < 2 ^ F.fractionBits := Nat.two_pow_pos _
  have hdiv := Nat.div_add_mod code (2 ^ F.fractionBits)
  have hmod := Nat.mod_lt code hpos
  by_cases hzero : code / 2 ^ F.fractionBits = 0
  · refine ⟨code % 2 ^ F.fractionBits, 0, ?_, ?_, by omega, .inr rfl⟩
    · simp [decompose, hzero]
    · rw [hzero] at hdiv
      omega
  · obtain ⟨k, hk⟩ := Nat.exists_eq_succ_of_ne_zero hzero
    refine ⟨2 ^ F.fractionBits + code % 2 ^ F.fractionBits, k, ?_, ?_, by omega, .inl (by omega)⟩
    · simp only [decompose, hk, Nat.succ_eq_add_one]
      rw [if_neg (Nat.succ_ne_zero k)]
      congr 1
      push_cast
      omega
    · rw [hk, Nat.mul_succ, Nat.mul_comm] at hdiv
      omega

/-- Digits and an exponent that stand in a code are found again. -/
theorem decompose_eq {m k : Nat} (hm : m < 2 * 2 ^ F.fractionBits)
    (hk : 2 ^ F.fractionBits ≤ m ∨ k = 0) :
    F.decompose (k * 2 ^ F.fractionBits + m) = (m, F.minExponent + k) := by
  have hpos : 0 < 2 ^ F.fractionBits := Nat.two_pow_pos _
  rcases Nat.lt_or_ge m (2 ^ F.fractionBits) with hlt | hge
  · obtain rfl : k = 0 := by omega
    simp [decompose, Nat.div_eq_of_lt hlt, Nat.mod_eq_of_lt hlt]
  · obtain ⟨r, rfl⟩ := Nat.exists_eq_add_of_le hge
    have hr : r < 2 ^ F.fractionBits := by omega
    have hcode : k * 2 ^ F.fractionBits + (2 ^ F.fractionBits + r) =
        r + 2 ^ F.fractionBits * (k + 1) := by ring
    have hdiv : (r + 2 ^ F.fractionBits * (k + 1)) / 2 ^ F.fractionBits = k + 1 := by
      rw [Nat.add_mul_div_left _ _ hpos, Nat.div_eq_of_lt hr, Nat.zero_add]
    have hmod : (r + 2 ^ F.fractionBits * (k + 1)) % 2 ^ F.fractionBits = r := by
      rw [Nat.add_mul_mod_self_left, Nat.mod_eq_of_lt hr]
    rw [hcode]
    simp only [decompose, hdiv, hmod]
    rw [if_neg (Nat.succ_ne_zero k)]
    congr 1
    push_cast
    omega

theorem value_eq {m k : Nat} (hm : m < 2 * 2 ^ F.fractionBits)
    (hk : 2 ^ F.fractionBits ≤ m ∨ k = 0) :
    F.value (k * 2 ^ F.fractionBits + m) = m * 2 ^ (F.minExponent + k) := by
  rw [value, decompose_eq hm hk]

theorem value_zero (F : BinaryFormat) : F.value 0 = 0 := by
  simp [value, decompose]

theorem value_pos (F : BinaryFormat) {code : Nat} (hcode : 0 < code) : 0 < F.value code := by
  obtain ⟨m, k, hdec, hsum, -, hk⟩ := F.decompose_spec code
  have hm : 0 < m := by
    rcases hk with hk | rfl
    · exact lt_of_lt_of_le (Nat.two_pow_pos _) hk
    · omega
  rw [value, hdec]
  positivity

/-- A number with few enough binary digits above the smallest exponent is a value of the
format. -/
theorem exists_value_eq {a k : Nat} (hapos : 0 < a) (ha : a < 2 * 2 ^ F.fractionBits) :
    ∃ code, 0 < code ∧ F.value code = a * 2 ^ (F.minExponent + k) := by
  -- Zeros are put behind the digits until there are as many digits as possible.
  induction k generalizing a with
  | zero =>
    refine ⟨a, hapos, ?_⟩
    simpa using value_eq (F := F) (k := 0) ha (.inr rfl)
  | succ k ih =>
    rcases Nat.lt_or_ge a (2 ^ F.fractionBits) with hlt | hge
    · obtain ⟨code, hcode, hvalue⟩ := ih (a := 2 * a) (by omega) (by omega)
      refine ⟨code, hcode, hvalue.trans ?_⟩
      push_cast
      rw [← add_assoc, zpow_add_one₀ (by norm_num)]
      ring
    · exact ⟨_, by omega, value_eq ha (.inl hge)⟩

/-- The values from the code of infinity on are at least the first power of two that is too
large. -/
theorem le_value_of_infinity_le (hbits : 1 ≤ F.exponentBits) {code : Nat}
    (hcode : F.infinity ≤ code) :
    (2 : ℚ) ^ (F.minExponent + (2 ^ F.exponentBits - 2) + F.fractionBits) ≤ F.value code := by
  obtain ⟨m, k, hdec, hsum, hm, hk⟩ := F.decompose_spec code
  have htwo : 2 ≤ 2 ^ F.exponentBits := by
    calc 2 = 2 ^ 1 := rfl
      _ ≤ 2 ^ F.exponentBits := Nat.pow_le_pow_right (by decide) hbits
  have hkge : 2 ^ F.exponentBits - 2 ≤ k := by
    by_contra hlt
    have hmul : (k + 2) * 2 ^ F.fractionBits ≤ (2 ^ F.exponentBits - 1) * 2 ^ F.fractionBits :=
      Nat.mul_le_mul_right _ (by omega)
    rw [infinity] at hcode
    rw [Nat.add_mul] at hmul
    omega
  have hmge : 2 ^ F.fractionBits ≤ m := by
    rcases hk with hk | hk
    · exact hk
    · rw [infinity] at hcode
      have hmul : 1 * 2 ^ F.fractionBits ≤ (2 ^ F.exponentBits - 1) * 2 ^ F.fractionBits :=
        Nat.mul_le_mul_right _ (by omega)
      rw [hk] at hsum
      omega
  have hexp : F.minExponent + (2 ^ F.exponentBits - 2) ≤ F.minExponent + k := by
    have : ((2 ^ F.exponentBits : Nat) : Int) = 2 ^ F.exponentBits := by simp
    omega
  have hmge' : (2 : ℚ) ^ F.fractionBits ≤ m := by exact_mod_cast hmge
  rw [value, hdec, zpow_add₀ (by norm_num), zpow_natCast, mul_comm]
  gcongr
  norm_num

/-- A value rounds to itself. -/
theorem rounds_value {code : Nat} : F.Rounds code (F.value code) := by
  have hreach : 0 < F.reach code := by
    rw [reach]
    split_ifs <;> norm_num
  have hpow : (0 : ℚ) < 2 ^ (F.decompose code).2 := by positivity
  have hlo : ((F.decompose code).1 - F.reach code) * 2 ^ (F.decompose code).2 < F.value code := by
    rw [value]
    gcongr
    linarith
  have hhi : F.value code < ((F.decompose code).1 + 1 / 2) * 2 ^ (F.decompose code).2 := by
    rw [value]
    gcongr
    linarith
  exact ⟨hlo.le, hhi.le, fun _ => ⟨hlo, hhi⟩⟩

end BinaryFormat

/-! ## Conversion finds the code -/

namespace Ratio

variable {F : BinaryFormat} {num den : Nat}

/-- A ratio of `x` units is converted to the nearest number of units, when units are chosen so that
the digits are as many as the format has. -/
theorem toBinary_of_units (hnum : 0 < num) (hden : 0 < den) {k m : Nat} {x : ℚ}
    (hx : (num / den : ℚ) = x * 2 ^ (F.minExponent + k)) (hm : Nearest m x)
    (hlt : x < 2 ^ (F.fractionBits + 1)) (hge : k = 0 ∨ 2 ^ F.fractionBits ≤ x) :
    toBinary F num den = k * 2 ^ F.fractionBits + m := by
  have hpow : (0 : ℚ) < 2 ^ (F.minExponent + k) := by positivity
  have hlog : log2 num den < F.fractionBits + 1 + (F.minExponent + k) := by
    apply log2_lt hnum hden
    rw [hx, zpow_add₀ (by norm_num) _ (F.minExponent + k : Int)]
    gcongr
    exact_mod_cast hlt
  have he : max F.minExponent (log2 num den - F.fractionBits) = F.minExponent + k := by
    rcases hge with rfl | hge
    · simp only [Nat.cast_zero, add_zero] at hlog ⊢
      omega
    · have hlog' : (F.fractionBits : Int) + (F.minExponent + k) ≤ log2 num den := by
        apply le_log2 hnum hden
        rw [hx, zpow_add₀ (by norm_num), zpow_natCast]
        gcongr
      omega
  simp only [toBinary, if_neg hnum.ne', he]
  rw [roundEven_eq (scale2_snd_pos num hden _) (k := m)]
  · congr 2
    omega
  · rwa [scale2_div, zpow_neg, ← div_eq_mul_inv, hx, mul_div_cancel_right₀ _ hpow.ne']

/-- Just below a power of two the last digit is worth half as much as above it.  From there a ratio
is converted to the power if it is at most a quarter of a unit of the power away. -/
theorem toBinary_below_power (hnum : 0 < num) (hden : 0 < den) {j : Nat} {x : ℚ}
    (hx : (num / den : ℚ) = x * 2 ^ (F.minExponent + (j + 1 : Nat)))
    (hlo : 2 ^ F.fractionBits - 1 / 4 ≤ x) (hhi : x < 2 ^ F.fractionBits) :
    toBinary F num den = (j + 1) * 2 ^ F.fractionBits + 2 ^ F.fractionBits := by
  have hone : (1 : ℚ) ≤ 2 ^ F.fractionBits := one_le_pow₀ (by norm_num)
  have hdouble : (2 : ℚ) ^ (F.fractionBits + 1) = 2 * 2 ^ F.fractionBits := pow_succ' ..
  have hunits : (num / den : ℚ) = 2 * x * 2 ^ (F.minExponent + j) := by
    rw [hx, Nat.cast_add, Nat.cast_one, ← add_assoc, zpow_add_one₀ (by norm_num)]
    ring
  have hnear : Nearest (2 ^ (F.fractionBits + 1)) (2 * x) := by
    refine ⟨?_, ?_, fun hodd => ?_⟩
    · push_cast
      linarith
    · push_cast
      linarith
    · rw [pow_succ'] at hodd
      omega
  rw [toBinary_of_units hnum hden hunits hnear (by linarith) (.inr (by linarith)), pow_succ']
  ring

/-- A ratio that rounds to the value with some code is converted to that code. -/
theorem toBinary_of_rounds (hnum : 0 < num) (hden : 0 < den) {code : Nat}
    (h : F.Rounds code (num / den)) : toBinary F num den = code := by
  obtain ⟨m, k, hdec, hcode, hm, hk⟩ := F.decompose_spec code
  obtain ⟨hlo, hhi, hodd⟩ := h
  simp only [hdec] at hlo hhi hodd
  have hpow : (0 : ℚ) < 2 ^ (F.minExponent + k) := by positivity
  rw [← le_div_iff₀ hpow] at hlo
  rw [← div_le_iff₀ hpow] at hhi
  rw [← lt_div_iff₀ hpow, ← div_lt_iff₀ hpow] at hodd
  have hmlt : (m : ℚ) + 1 ≤ 2 ^ (F.fractionBits + 1) := by
    rw [pow_succ']
    exact_mod_cast hm
  -- `x` is the ratio in units of the last digit of the value.
  obtain ⟨x, hx⟩ : ∃ x : ℚ, x = num / den / 2 ^ (F.minExponent + k) := ⟨_, rfl⟩
  have hratio : (num / den : ℚ) = x * 2 ^ (F.minExponent + k) := by
    rw [hx, div_mul_cancel₀ _ hpow.ne']
  rw [← hx] at hlo hhi hodd
  have hreach : F.reach code ≤ 1 / 2 := by
    rw [BinaryFormat.reach]
    split_ifs <;> norm_num
  have hxlt : x < 2 ^ (F.fractionBits + 1) := by linarith
  by_cases hbelow : k ≠ 0 ∧ x < 2 ^ F.fractionBits
  · -- the value is a power of two, and the ratio lies below it
    obtain ⟨hk0, hxf⟩ := hbelow
    have hmf : m = 2 ^ F.fractionBits := by
      refine le_antisymm ?_ (hk.resolve_right hk0)
      have : (m : ℚ) < 2 ^ F.fractionBits + 1 := by linarith
      have : m < 2 ^ F.fractionBits + 1 := by exact_mod_cast this
      omega
    obtain ⟨j, rfl⟩ := Nat.exists_eq_succ_of_ne_zero hk0
    have hquarter : F.reach code = 1 / 4 := by
      rw [BinaryFormat.reach, hdec, if_pos ⟨hmf, by simp only; omega⟩]
    rw [hquarter, hmf, Nat.cast_pow, Nat.cast_ofNat] at hlo
    rw [toBinary_below_power hnum hden hratio hlo hxf, hcode, hmf]
  · rw [hcode]
    refine toBinary_of_units hnum hden hratio ?_ hxlt ?_
    · exact ⟨by linarith, hhi, fun hone => ⟨by linarith [(hodd hone).1], (hodd hone).2⟩⟩
    · rw [not_and_or, not_not, not_lt] at hbelow
      exact hbelow

/-- A value of the format is converted to its own code. -/
theorem toBinary_value (hden : 0 < den) {code : Nat} (h : (num / den : ℚ) = F.value code) :
    toBinary F num den = code := by
  rcases Nat.eq_zero_or_pos code with rfl | hcode
  · have hnum : num = 0 := by
      have hpos : (den : ℚ) ≠ 0 := by exact_mod_cast hden.ne'
      rw [F.value_zero, div_eq_zero_iff] at h
      exact_mod_cast h.resolve_right hpos
    rw [toBinary, if_pos hnum]
  have hvalue := F.value_pos hcode
  have hnum : 0 < num := by
    rcases Nat.eq_zero_or_pos num with rfl | hpos
    · simp [← h] at hvalue
    · exact hpos
  refine toBinary_of_rounds hnum hden ?_
  rw [h]
  exact BinaryFormat.rounds_value

end Ratio

end LuaAssembly
