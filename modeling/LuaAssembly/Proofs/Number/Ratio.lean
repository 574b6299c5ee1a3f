import Mathlib
import LuaAssembly.Number.Binary

/-!
# Exact ratios

The computations on ratios of natural numbers, as statements about rational numbers: scaling by
powers of two and ten, the exponent of the leading digit in either base, and rounding to the
nearest integer.
-/
namespace LuaAssembly.Ratio

variable {num den : Nat}

/-! ## Scaling -/

theorem scale2_div (num den : Nat) (e : Int) :
    ((scale2 num den e).1 : ℚ) / (scale2 num den e).2 = num / den * 2 ^ e := by
  rw [scale2]
  split_ifs with he
  · obtain ⟨n, rfl⟩ := Int.eq_ofNat_of_zero_le he
    simp [mul_div_right_comm]
  · obtain ⟨n, rfl⟩ : ∃ n : Nat, e = -n := ⟨(-e).toNat, by omega⟩
    simp [div_eq_mul_inv]
    ring

theorem scale10_div (num den : Nat) (e : Int) :
    ((scale10 num den e).1 : ℚ) / (scale10 num den e).2 = num / den * 10 ^ e := by
  rw [scale10]
  split_ifs with he
  · obtain ⟨n, rfl⟩ := Int.eq_ofNat_of_zero_le he
    simp [mul_div_right_comm]
  · obtain ⟨n, rfl⟩ : ∃ n : Nat, e = -n := ⟨(-e).toNat, by omega⟩
    simp [div_eq_mul_inv]
    ring

theorem scale2_snd_pos (num : Nat) (hden : 0 < den) (e : Int) : 0 < (scale2 num den e).2 := by
  rw [scale2]
  split_ifs
  · exact hden
  · exact Nat.mul_pos hden (Nat.two_pow_pos _)

theorem scale10_snd_pos (num : Nat) (hden : 0 < den) (e : Int) : 0 < (scale10 num den e).2 := by
  rw [scale10]
  split_ifs
  · exact hden
  · exact Nat.mul_pos hden (Nat.pow_pos (by decide))

theorem scale10_fst_pos (hnum : 0 < num) (den : Nat) (e : Int) : 0 < (scale10 num den e).1 := by
  rw [scale10]
  split_ifs
  · exact Nat.mul_pos hnum (Nat.pow_pos (by decide))
  · exact hnum

/-- Comparing the parts of a scaled ratio compares the ratio with a power of two. -/
theorem scale2_neg_le_iff (hden : 0 < den) (e : Int) :
    (scale2 num den (-e)).2 ≤ (scale2 num den (-e)).1 ↔ (2 : ℚ) ^ e ≤ num / den := by
  have hpos : (0 : ℚ) < (scale2 num den (-e)).2 := by
    exact_mod_cast scale2_snd_pos num hden (-e)
  rw [← Nat.cast_le (α := ℚ), ← one_le_div₀ hpos, scale2_div, zpow_neg, ← div_eq_mul_inv,
    one_le_div₀ (by positivity)]

theorem scale10_neg_lt_iff (hden : 0 < den) (e : Int) :
    (scale10 num den (-e)).1 < (scale10 num den (-e)).2 ↔ (num / den : ℚ) < 10 ^ e := by
  have hpos : (0 : ℚ) < (scale10 num den (-e)).2 := by
    exact_mod_cast scale10_snd_pos num hden (-e)
  rw [← Nat.cast_lt (α := ℚ), ← div_lt_one₀ hpos, scale10_div, zpow_neg, ← div_eq_mul_inv,
    div_lt_one₀ (by positivity)]

theorem scale10_neg_ten_mul_le_iff (hden : 0 < den) (e : Int) :
    10 * (scale10 num den (-e)).2 ≤ (scale10 num den (-e)).1 ↔
      (10 : ℚ) ^ (e + 1) ≤ num / den := by
  have hpos : (0 : ℚ) < (scale10 num den (-e)).2 := by
    exact_mod_cast scale10_snd_pos num hden (-e)
  rw [← Nat.cast_le (α := ℚ), Nat.cast_mul, ← le_div_iff₀ hpos, scale10_div, zpow_neg,
    ← div_eq_mul_inv, le_div_iff₀ (by positivity), zpow_add_one₀ (by norm_num), mul_comm]
  norm_num

/-! ## Leading digits -/

/-- The binary exponent of a ratio: the ratio lies between two successive powers of two. -/
theorem log2_spec (hnum : 0 < num) (hden : 0 < den) :
    (2 : ℚ) ^ log2 num den ≤ num / den ∧ (num / den : ℚ) < 2 ^ (log2 num den + 1) := by
  have hn₁ : (2 : ℚ) ^ (Nat.log2 num : Int) ≤ num := by
    rw [zpow_natCast]
    exact_mod_cast Nat.log2_self_le hnum.ne'
  have hn₂ : (num : ℚ) < 2 ^ ((Nat.log2 num : Int) + 1) := by
    exact_mod_cast (Nat.lt_log2_self (n := num))
  have hd₁ : (2 : ℚ) ^ (Nat.log2 den : Int) ≤ den := by
    rw [zpow_natCast]
    exact_mod_cast Nat.log2_self_le hden.ne'
  have hd₂ : (den : ℚ) < 2 ^ ((Nat.log2 den : Int) + 1) := by
    exact_mod_cast (Nat.lt_log2_self (n := den))
  have hdpos : (0 : ℚ) < den := by exact_mod_cast hden
  have hguess : log2 num den = if (2 : ℚ) ^ ((Nat.log2 num : Int) - Nat.log2 den) ≤ num / den
      then (Nat.log2 num : Int) - Nat.log2 den else (Nat.log2 num : Int) - Nat.log2 den - 1 := by
    simp only [log2, scale2_neg_le_iff hden]
  rw [hguess]
  split_ifs with hle
  · refine ⟨hle, ?_⟩
    rw [div_lt_iff₀ hdpos]
    calc (num : ℚ) < 2 ^ ((Nat.log2 num : Int) + 1) := hn₂
      _ = 2 ^ ((Nat.log2 num : Int) - Nat.log2 den + 1) * 2 ^ (Nat.log2 den : Int) := by
        rw [← zpow_add₀ (by norm_num)]
        congr 1
        omega
      _ ≤ _ := by gcongr
  · refine ⟨?_, by rw [sub_add_cancel]; exact not_le.1 hle⟩
    rw [le_div_iff₀ hdpos]
    calc (2 : ℚ) ^ ((Nat.log2 num : Int) - Nat.log2 den - 1) * den
        ≤ 2 ^ ((Nat.log2 num : Int) - Nat.log2 den - 1) * 2 ^ ((Nat.log2 den : Int) + 1) := by
          gcongr
      _ = 2 ^ (Nat.log2 num : Int) := by
        rw [← zpow_add₀ (by norm_num)]
        congr 1
        omega
      _ ≤ _ := hn₁

theorem le_log2 (hnum : 0 < num) (hden : 0 < den) {e : Int} (h : (2 : ℚ) ^ e ≤ num / den) :
    e ≤ log2 num den := by
  have hlt := h.trans_lt (log2_spec hnum hden).2
  have := (zpow_lt_zpow_iff_right₀ (by norm_num : (1 : ℚ) < 2)).1 hlt
  omega

theorem log2_lt (hnum : 0 < num) (hden : 0 < den) {e : Int} (h : (num / den : ℚ) < 2 ^ e) :
    log2 num den < e :=
  (zpow_lt_zpow_iff_right₀ (by norm_num : (1 : ℚ) < 2)).1 ((log2_spec hnum hden).1.trans_lt h)

/-- How the guess that the decimal exponent starts from compares with the binary exponent, for the
exponents that numbers have.  The fraction `30103 / 100000` is close enough to the logarithm. -/
theorem pow_guess_bounds : ∀ n < 1101,
    10 ^ (n * 30103 / 100000) ≤ 10 * 2 ^ n ∧
      2 ^ (n + 1) ≤ 10 ^ (n * 30103 / 100000 + 2) ∧
      2 ^ n ≤ 10 ^ ((n * 30103 + 99999) / 100000 + 1) ∧
      2 * 10 ^ ((n * 30103 + 99999) / 100000) ≤ 100 * 2 ^ n := by
  decide +kernel

theorem zpow_guess_bounds {e : Int} (hlo : -1100 ≤ e) (hhi : e ≤ 1100) :
    (10 : ℚ) ^ (e * 30103 / 100000 - 1) ≤ 2 ^ e ∧
      (2 : ℚ) ^ (e + 1) ≤ 10 ^ (e * 30103 / 100000 + 2) := by
  rcases Int.le_total 0 e with he | he
  · obtain ⟨n, rfl⟩ := Int.eq_ofNat_of_zero_le he
    obtain ⟨h₁, h₂, -, -⟩ := pow_guess_bounds n (by omega)
    have hguess : (n : Int) * 30103 / 100000 = ((n * 30103 / 100000 : Nat) : Int) := by omega
    rw [hguess]
    constructor
    · rw [zpow_sub_one₀ (by norm_num), ← div_eq_mul_inv, div_le_iff₀' (by norm_num)]
      exact_mod_cast h₁
    · exact_mod_cast h₂
  · obtain ⟨n, rfl⟩ : ∃ n : Nat, e = -n := ⟨(-e).toNat, by omega⟩
    obtain ⟨-, -, h₁, h₂⟩ := pow_guess_bounds n (by omega)
    have hguess : -(n : Int) * 30103 / 100000 = -((n * 30103 + 99999) / 100000 : Nat) := by omega
    rw [hguess]
    constructor
    · rw [← neg_add', zpow_neg, zpow_neg]
      apply inv_anti₀ (by positivity)
      exact_mod_cast h₁
    · rw [zpow_add_one₀ (by norm_num), zpow_add₀ (by norm_num), zpow_neg, zpow_neg, inv_mul_eq_div,
        inv_mul_eq_div, div_le_div_iff₀ (by positivity) (by positivity)]
      exact_mod_cast h₂

/-- The decimal exponent of a ratio in the range of numbers: the ratio lies between two successive
powers of ten. -/
theorem log10_spec (hnum : 0 < num) (hden : 0 < den) (hlo : -1100 ≤ log2 num den)
    (hhi : log2 num den ≤ 1100) :
    (10 : ℚ) ^ log10 num den ≤ num / den ∧ (num / den : ℚ) < 10 ^ (log10 num den + 1) := by
  obtain ⟨h₁, h₂⟩ := log2_spec hnum hden
  obtain ⟨g₁, g₂⟩ := zpow_guess_bounds hlo hhi
  simp only [log10, scale10_neg_lt_iff hden, scale10_neg_ten_mul_le_iff hden]
  split_ifs with hlt hge
  · exact ⟨g₁.trans h₁, by rwa [sub_add_cancel]⟩
  · exact ⟨hge, by rw [add_assoc]; exact h₂.trans_le g₂⟩
  · exact ⟨not_lt.1 hlt, not_le.1 hge⟩

/-! ## Rounding -/

/-- The natural number nearest to a rational, a tie going to the even one. -/
def Nearest (k : Nat) (x : ℚ) : Prop :=
  (k : ℚ) - 1 / 2 ≤ x ∧ x ≤ k + 1 / 2 ∧ (k % 2 = 1 → (k : ℚ) - 1 / 2 < x ∧ x < k + 1 / 2)

theorem roundEven_eq (hden : 0 < den) {k : Nat} (h : Nearest k (num / den : ℚ)) :
    roundEven num den = k := by
  have hpos : (0 : ℚ) < den := by exact_mod_cast hden
  obtain ⟨hlo, hhi, hodd⟩ := h
  rw [le_div_iff₀ hpos] at hlo
  rw [div_le_iff₀ hpos] at hhi
  rw [lt_div_iff₀ hpos, div_lt_iff₀ hpos] at hodd
  have hlo' : 2 * (k * den) ≤ 2 * num + den := by
    have : (2 * (k * den) : ℚ) ≤ 2 * num + den := by linarith
    exact_mod_cast this
  have hhi' : 2 * num ≤ 2 * (k * den) + den := by
    have : (2 * num : ℚ) ≤ 2 * (k * den) + den := by linarith
    exact_mod_cast this
  have hodd' : k % 2 = 1 → 2 * (k * den) < 2 * num + den ∧ 2 * num < 2 * (k * den) + den := by
    intro hk
    obtain ⟨h₁, h₂⟩ := hodd hk
    have h₁' : (2 * (k * den) : ℚ) < 2 * num + den := by linarith
    have h₂' : (2 * num : ℚ) < 2 * (k * den) + den := by linarith
    exact ⟨by exact_mod_cast h₁', by exact_mod_cast h₂'⟩
  have hdiv := Nat.div_add_mod num den
  have hmod := Nat.mod_lt num hden
  -- `k` is the quotient or the next number.
  have hk₁ : num / den ≤ k := by
    by_contra hlt
    have : (k + 1) * den ≤ den * (num / den) := by
      rw [Nat.mul_comm den]
      exact Nat.mul_le_mul_right _ (by omega)
    rw [Nat.add_mul] at this
    omega
  have hk₂ : k ≤ num / den + 1 := by
    by_contra hlt
    have : den * (num / den) + 2 * den ≤ k * den := by
      rw [Nat.mul_comm den, ← Nat.add_mul]
      exact Nat.mul_le_mul_right _ (by omega)
    omega
  have hk : k = num / den ∨ k = num / den + 1 := by omega
  simp only [roundEven]
  rcases hk with hk | hk
  · have hkd : k * den = den * (num / den) := by rw [hk, Nat.mul_comm]
    split_ifs <;> omega
  · have hkd : k * den = den * (num / den) + den := by rw [hk, Nat.add_mul, Nat.mul_comm]; omega
    split_ifs <;> omega

theorem roundEven_near (num : Nat) (hden : 0 < den) :
    (roundEven num den : ℚ) - 1 / 2 ≤ num / den ∧ (num / den : ℚ) ≤ roundEven num den + 1 / 2 := by
  have hpos : (0 : ℚ) < den := by exact_mod_cast hden
  have hdiv := Nat.div_add_mod num den
  obtain ⟨q, hq⟩ : ∃ q, q = num / den := ⟨_, rfl⟩
  obtain ⟨r, hr⟩ : ∃ r, r = num % den := ⟨_, rfl⟩
  have hround : 2 * (roundEven num den * den) ≤ 2 * num + den ∧
      2 * num ≤ 2 * (roundEven num den * den) + den := by
    simp only [roundEven, ← hq, ← hr] at hdiv ⊢
    have hmod := Nat.mod_lt num hden
    rw [← hr] at hmod
    rw [Nat.mul_comm den] at hdiv
    split_ifs
    · omega
    · rw [Nat.add_mul]
      omega
    · rcases Nat.mod_two_eq_zero_or_one q with h | h <;> rw [h, Nat.add_mul] <;> omega
  obtain ⟨h₁, h₂⟩ := hround
  have h₁' : (2 * (roundEven num den * den) : ℚ) ≤ 2 * num + den := by exact_mod_cast h₁
  have h₂' : (2 * num : ℚ) ≤ 2 * (roundEven num den * den) + den := by exact_mod_cast h₂
  rw [le_div_iff₀ hpos, div_le_iff₀ hpos]
  constructor <;> linarith

end LuaAssembly.Ratio
