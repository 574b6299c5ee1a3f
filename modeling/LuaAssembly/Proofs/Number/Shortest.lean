import Mathlib
import LuaAssembly.Number.Shortest
import LuaAssembly.Proofs.Number.Rounding

/-!
# The shortest digits round to the number

The interval that the search for digits works with is the interval of the rationals that round to
the number.  The finest grid that the search tries is so fine that the grid point nearest to the
number lies in the interval, so the search always ends with digits, and the digits it ends with
round to the number.
-/
namespace LuaAssembly

/-- The decimal as a rational. -/
def Decimal.value (x : Decimal) : ℚ :=
  x.digits * 10 ^ x.exponent

theorem Decimal.trim_value (bound : Nat) (x : Decimal) : (x.trim bound).value = x.value := by
  induction bound generalizing x with
  | zero => rfl
  | succ bound ih =>
    rw [trim]
    split_ifs with h
    · rw [ih, value, value, zpow_add_one₀ (by norm_num)]
      have hdigits : (x.digits : ℚ) = 10 * (x.digits / 10 : Nat) := by
        have : x.digits = 10 * (x.digits / 10) := by omega
        exact_mod_cast this
      rw [hdigits]
      push_cast
      ring
    · rfl

theorem Decimal.trim_digits_le (bound : Nat) (x : Decimal) :
    (x.trim bound).digits ≤ x.digits := by
  induction bound generalizing x with
  | zero => exact le_rfl
  | succ bound ih =>
    rw [trim]
    split_ifs
    · exact (ih _).trans (Nat.div_le_self _ _)
    · exact le_rfl

namespace RoundingInterval

/-- Two scaled ratios compared by cross-multiplication. -/
theorem scaled_mul_le_iff {a b a' b' : Nat} (hb : 0 < b) (hb' : 0 < b') :
    a * b' ≤ a' * b ↔ (a / b : ℚ) ≤ a' / b' := by
  rw [div_le_div_iff₀ (by exact_mod_cast hb) (by exact_mod_cast hb')]
  exact_mod_cast Iff.rfl

theorem scaled_mul_lt_iff {a b a' b' : Nat} (hb : 0 < b) (hb' : 0 < b') :
    a * b' < a' * b ↔ (a / b : ℚ) < a' / b' := by
  rw [div_lt_div_iff₀ (by exact_mod_cast hb) (by exact_mod_cast hb')]
  exact_mod_cast Iff.rfl

theorem contains_iff (I : RoundingInterval) (c : Nat) (g : Int) :
    I.contains c g ↔
      if I.closed then
        (I.low * 2 ^ I.exponent : ℚ) ≤ c * 10 ^ g ∧ (c * 10 ^ g : ℚ) ≤ I.high * 2 ^ I.exponent
      else
        (I.low * 2 ^ I.exponent : ℚ) < c * 10 ^ g ∧
          (c * 10 ^ g : ℚ) < I.high * 2 ^ I.exponent := by
  have hlow := Ratio.scale2_div I.low 1 I.exponent
  have hhigh := Ratio.scale2_div I.high 1 I.exponent
  have hdec := Ratio.scale10_div c 1 g
  have hlow' := Ratio.scale2_snd_pos I.low one_pos I.exponent
  have hhigh' := Ratio.scale2_snd_pos I.high one_pos I.exponent
  have hdec' := Ratio.scale10_snd_pos c one_pos g
  simp only [Nat.cast_one, div_one] at hlow hhigh hdec
  rw [← hlow, ← hhigh, ← hdec]
  simp only [contains]
  split_ifs
  · simp only [Bool.and_eq_true, decide_eq_true_eq, scaled_mul_le_iff hlow' hdec',
      scaled_mul_le_iff hdec' hhigh']
  · simp only [Bool.and_eq_true, decide_eq_true_eq, scaled_mul_lt_iff hlow' hdec',
      scaled_mul_lt_iff hdec' hhigh']

/-- The interval of a code is the set of rationals that round to its value. -/
theorem ofCode_contains_iff {code : Nat} (hcode : 0 < code) (c : Nat) (g : Int) :
    (ofCode code).contains c g ↔ BinaryFormat.double.Rounds code (c * 10 ^ g) := by
  obtain ⟨m, k, hdec, hsum, -, hk⟩ := BinaryFormat.double.decompose_spec code
  have hm : 0 < m := by
    rcases hk with hk | rfl
    · exact lt_of_lt_of_le (Nat.two_pow_pos _) hk
    · omega
  obtain ⟨e, he⟩ : ∃ e, e = BinaryFormat.double.minExponent + (k : Int) := ⟨_, rfl⟩
  rw [← he] at hdec
  have hunit : (2 : ℚ) ^ e = 4 * 2 ^ (e - 2) := by
    rw [zpow_sub₀ (by norm_num)]
    norm_num
    ring
  have hlow : ((4 * m - (if m = 2 ^ 52 ∧ BinaryFormat.double.minExponent < e then 1 else 2) : Nat)
      : ℚ) * 2 ^ (e - 2) = (m - BinaryFormat.double.reach code) * 2 ^ e := by
    rw [BinaryFormat.reach, hdec, hunit, show BinaryFormat.double.fractionBits = 52 from rfl]
    simp only
    split_ifs <;> rw [Nat.cast_sub (by omega)] <;> push_cast <;> ring
  have hhigh : ((4 * m + 2 : Nat) : ℚ) * 2 ^ (e - 2) = (m + 1 / 2) * 2 ^ e := by
    rw [hunit]
    push_cast
    ring
  rw [contains_iff]
  simp only [ofCode, hdec, hlow, hhigh, BinaryFormat.Rounds]
  by_cases heven : m % 2 = 0
  · simp [heven]
  · have hodd : m % 2 = 1 := by omega
    simp only [hodd, one_ne_zero, decide_false, Bool.false_eq_true, if_false, true_implies]
    exact ⟨fun h => ⟨h.1.le, h.2.le, h⟩, fun h => h.2.2⟩

/-- The number with the given code in units of `10 ^ g`, as a ratio. -/
def onGridRatio (code : Nat) (g : Int) : Nat × Nat :=
  let (num, den) := Ratio.scale2 (ofCode code).value 1 (ofCode code).exponent
  Ratio.scale10 num den (-g)

theorem onGridRatio_snd_pos (code : Nat) (g : Int) : 0 < (onGridRatio code g).2 :=
  Ratio.scale10_snd_pos _ (Ratio.scale2_snd_pos _ one_pos _) _

theorem ofCode_value (code : Nat) :
    ((ofCode code).value * 2 ^ (ofCode code).exponent : ℚ) = BinaryFormat.double.value code := by
  simp only [ofCode, BinaryFormat.value]
  rw [zpow_sub₀ (by norm_num)]
  push_cast
  ring

theorem onGridRatio_div (code : Nat) (g : Int) :
    ((onGridRatio code g).1 : ℚ) / (onGridRatio code g).2 =
      BinaryFormat.double.value code / 10 ^ g := by
  simp only [onGridRatio]
  rw [Ratio.scale10_div, Ratio.scale2_div, Nat.cast_one, div_one, ofCode_value, zpow_neg,
    div_eq_mul_inv]

/-- A grid that is fine enough against the interval has a point in it. -/
theorem onGrid?_isSome {code : Nat} (hcode : 0 < code) {g : Int}
    (hg : (10 : ℚ) ^ g < 2 * BinaryFormat.double.reach code *
      2 ^ (BinaryFormat.double.decompose code).2) :
    ((ofCode code).onGrid? g).isSome := by
  have hup : (ofCode code).contains (Ratio.roundEven (onGridRatio code g).1 (onGridRatio code g).2) g := by
    obtain ⟨hlo, hhi⟩ := Ratio.roundEven_near (onGridRatio code g).1 (onGridRatio_snd_pos code g)
    obtain ⟨c, hc⟩ : ∃ c, c = Ratio.roundEven (onGridRatio code g).1 (onGridRatio code g).2 :=
      ⟨_, rfl⟩
    have hgrid : (0 : ℚ) < 10 ^ g := by positivity
    rw [onGridRatio_div, ← hc, le_div_iff₀ hgrid] at hlo
    rw [onGridRatio_div, ← hc, div_le_iff₀ hgrid] at hhi
    rw [BinaryFormat.value] at hlo hhi
    have hreach : BinaryFormat.double.reach code ≤ 1 / 2 := by
      rw [BinaryFormat.reach]
      split_ifs <;> norm_num
    have hpow : (0 : ℚ) < 2 ^ (BinaryFormat.double.decompose code).2 := by positivity
    have hhalf : (10 : ℚ) ^ g < 2 ^ (BinaryFormat.double.decompose code).2 := by nlinarith
    rw [← hc, ofCode_contains_iff hcode]
    refine ⟨by linarith, by linarith, fun _ => ⟨by linarith, by linarith⟩⟩
  rw [onGridRatio] at hup
  simp [onGrid?, hup]

theorem contains_of_onGrid? {I : RoundingInterval} {g : Int} {x : Decimal}
    (h : I.onGrid? g = some x) : I.contains x.digits x.exponent ∧ x.exponent = g := by
  simp only [onGrid?] at h
  split_ifs at h with hup _ hdown hdown
  all_goals cases h
  · exact ⟨hup, rfl⟩
  · exact ⟨hdown, rfl⟩
  · exact ⟨hdown, rfl⟩

/-- What the search ends with lies in the interval and on one of the grids that it may try. -/
theorem contains_of_search {I : RoundingInterval} {grids : Nat} {g : Int} {x : Decimal}
    (h : I.search grids g = some x) : I.contains x.digits x.exponent ∧ g - grids < x.exponent := by
  induction grids generalizing g with
  | zero => cases h
  | succ grids ih =>
    rw [search] at h
    split at h
    · rename_i y hy
      cases h
      obtain ⟨hcontains, hg⟩ := contains_of_onGrid? hy
      exact ⟨hcontains, by omega⟩
    · obtain ⟨hcontains, hg⟩ := ih h
      exact ⟨hcontains, by omega⟩

/-- The search ends with digits if the last grid it may try has a point in the interval. -/
theorem search_isSome {I : RoundingInterval} (grids : Nat) {g : Int}
    (h : (I.onGrid? (g - grids)).isSome) : (I.search (grids + 1) g).isSome := by
  induction grids generalizing g with
  | zero =>
    obtain ⟨x, hx⟩ := Option.isSome_iff_exists.1 h
    simp only [Nat.cast_zero, sub_zero] at hx
    simp [search, hx]
  | succ grids ih =>
    rw [search]
    split
    · rfl
    · apply ih
      rwa [Nat.cast_succ, add_comm, ← sub_sub] at h

end RoundingInterval

namespace Number

/-- What rounds to a finite number other than zero lies in the range of the estimate of the decimal
exponent. -/
theorem bounds_of_rounds {code : Nat} (hcode : 0 < code)
    (hfin : code < BinaryFormat.double.infinity) {x : ℚ}
    (hx : BinaryFormat.double.Rounds code x) : (2 : ℚ) ^ (-1075 : Int) ≤ x ∧ x < 2 ^ (1024 : Int) := by
  obtain ⟨m, k, hdec, hsum, hm, hk⟩ := BinaryFormat.double.decompose_spec code
  rw [show BinaryFormat.double.infinity = 2047 * 2 ^ 52 by decide] at hfin
  rw [show BinaryFormat.double.minExponent = -1074 by decide] at hdec
  rw [show BinaryFormat.double.fractionBits = 52 from rfl] at hsum hm hk
  have hmpos : (1 : ℚ) ≤ m := by
    have : 1 ≤ m := by omega
    exact_mod_cast this
  have hmlt : (m : ℚ) + 1 ≤ 2 ^ (53 : Int) := by
    have : m + 1 ≤ 2 ^ 53 := by omega
    exact_mod_cast this
  have hreach : BinaryFormat.double.reach code ≤ 1 / 2 := by
    rw [BinaryFormat.reach]
    split_ifs <;> norm_num
  obtain ⟨hlo, hhi, -⟩ := hx
  rw [hdec] at hlo hhi
  constructor
  · calc (2 : ℚ) ^ (-1075 : Int) = 1 / 2 * 2 ^ (-1074 : Int) := by
          rw [show (-1075 : Int) = -1 + -1074 by decide, zpow_add₀ (by norm_num)]
          norm_num
      _ ≤ (m - BinaryFormat.double.reach code) * 2 ^ (-1074 + k : Int) := by
        gcongr
        · linarith
        · linarith
        · norm_num
        · omega
      _ ≤ x := hlo
  · calc x ≤ (m + 1 / 2) * 2 ^ (-1074 + k : Int) := hhi
      _ < 2 ^ (53 : Int) * 2 ^ (-1074 + k : Int) := by
        gcongr
        linarith
      _ = 2 ^ (-1021 + k : Int) := by
        rw [← zpow_add₀ (by norm_num)]
        congr 1
        omega
      _ ≤ 2 ^ (1024 : Int) := by
        gcongr
        · norm_num
        · omega

/-- A ratio that rounds to a finite number other than zero has its decimal exponent found. -/
theorem log10_spec_of_rounds {code num den : Nat} (hcode : 0 < code)
    (hfin : code < BinaryFormat.double.infinity) (hden : 0 < den)
    (h : BinaryFormat.double.Rounds code (num / den)) :
    (10 : ℚ) ^ Ratio.log10 num den ≤ num / den ∧
      (num / den : ℚ) < 10 ^ (Ratio.log10 num den + 1) := by
  obtain ⟨hlo, hhi⟩ := bounds_of_rounds hcode hfin h
  have hnum : 0 < num := by
    rcases Nat.eq_zero_or_pos num with rfl | hpos
    · rw [Nat.cast_zero, zero_div] at hlo
      exact absurd hlo (not_le.2 (by positivity))
    · exact hpos
  refine Ratio.log10_spec hnum hden ?_ ?_
  · have := (zpow_lt_zpow_iff_right₀ (by norm_num : (1 : ℚ) < 2)).1
      (hlo.trans_lt (Ratio.log2_spec hnum hden).2)
    omega
  · have := Ratio.log2_lt hnum hden hhi
    omega

/-- The grid of seventeen digits is fine enough against the interval of a number. -/
theorem grid_fine {code : Nat} {L : Int} (h : (10 : ℚ) ^ L ≤ BinaryFormat.double.value code) :
    (10 : ℚ) ^ (L - 16) <
      2 * BinaryFormat.double.reach code * 2 ^ (BinaryFormat.double.decompose code).2 := by
  obtain ⟨m, k, hdec, -, hm, -⟩ := BinaryFormat.double.decompose_spec code
  rw [BinaryFormat.value, hdec] at h
  rw [BinaryFormat.reach, hdec]
  simp only at h ⊢
  have hpow : (0 : ℚ) < 2 ^ (BinaryFormat.double.minExponent + k) := by positivity
  have hgrid : (10 : ℚ) ^ (L - 16) = 10 ^ L / 10 ^ 16 := by
    rw [zpow_sub₀ (by norm_num)]
    norm_num
  rw [hgrid, div_lt_iff₀ (by norm_num)]
  refine h.trans_lt ?_
  rw [mul_right_comm]
  gcongr
  rw [show BinaryFormat.double.fractionBits = 52 from rfl] at hm ⊢
  split_ifs with hbelow
  · rw [hbelow.1]
    norm_num
  · have : m < 10 ^ 16 := by omega
    have : (m : ℚ) < 10 ^ 16 := by exact_mod_cast this
    linarith

theorem shortest_eq {v : Number} {I : RoundingInterval} {x : Decimal}
    (hI : RoundingInterval.ofCode v.magnitude = I)
    (h : I.search 17 (Ratio.log10 (Ratio.scale2 I.value 1 I.exponent).1
      (Ratio.scale2 I.value 1 I.exponent).2) = some x) : v.shortest = x.trim 2 := by
  unfold shortest
  -- The match on the search must not be evaluated.
  dsimp -iota only
  rw [hI]
  split
  rename_i num den hratio
  rw [hratio] at h
  split
  · rename_i y hy
    rw [Option.some.inj (hy.symm.trans h)]
  · rename_i hy
    cases hy.symm.trans h

theorem le_two_mul_value_of_rounds {code : Nat} (hcode : 0 < code) {x : ℚ}
    (h : BinaryFormat.double.Rounds code x) : x ≤ 2 * BinaryFormat.double.value code := by
  obtain ⟨m, k, hdec, hsum, -, hk⟩ := BinaryFormat.double.decompose_spec code
  have hm : (1 : ℚ) ≤ m := by
    have : 1 ≤ m := by
      rcases hk with hk | rfl
      · exact Nat.one_le_two_pow.trans hk
      · omega
    exact_mod_cast this
  refine h.2.1.trans ?_
  rw [BinaryFormat.value, ← mul_assoc, hdec]
  gcongr
  linarith

/-- The digits that a finite number other than zero is written with round to it, and they are
few. -/
theorem shortest_spec {v : Number} (hpos : 0 < v.magnitude)
    (hfin : v.magnitude < BinaryFormat.double.infinity) :
    BinaryFormat.double.Rounds v.magnitude v.shortest.value ∧ v.shortest.digits < 10 ^ 18 := by
  obtain ⟨code, hcode⟩ : ∃ code, code = v.magnitude := ⟨_, rfl⟩
  rw [← hcode] at hpos hfin ⊢
  obtain ⟨I, hI⟩ : ∃ I, RoundingInterval.ofCode code = I := ⟨_, rfl⟩
  obtain ⟨L, hL⟩ : ∃ L, L = Ratio.log10 (Ratio.scale2 I.value 1 I.exponent).1
    (Ratio.scale2 I.value 1 I.exponent).2 := ⟨_, rfl⟩
  have hlog : (10 : ℚ) ^ L ≤ BinaryFormat.double.value code ∧
      BinaryFormat.double.value code < 10 ^ (L + 1) := by
    have hdiv := Ratio.scale2_div I.value 1 I.exponent
    rw [Nat.cast_one, div_one, ← hI, RoundingInterval.ofCode_value, hI] at hdiv
    rw [← hdiv, hL]
    refine log10_spec_of_rounds hpos hfin (Ratio.scale2_snd_pos _ one_pos _) ?_
    rw [hdiv]
    exact BinaryFormat.rounds_value
  have hgrid := RoundingInterval.onGrid?_isSome hpos (grid_fine hlog.1)
  rw [hI, ← Nat.cast_ofNat (R := Int)] at hgrid
  obtain ⟨x, hx⟩ := Option.isSome_iff_exists.1 (RoundingInterval.search_isSome 16 hgrid)
  obtain ⟨hcontains, hexponent⟩ := RoundingInterval.contains_of_search hx
  rw [← hI, RoundingInterval.ofCode_contains_iff hpos] at hcontains
  rw [shortest_eq (hcode ▸ hI) (hL ▸ hx), Decimal.trim_value]
  refine ⟨hcontains, (Decimal.trim_digits_le 2 x).trans_lt ?_⟩
  have hunit : (0 : ℚ) < 10 ^ (L - 16) := by positivity
  have hdigits : (x.digits : ℚ) * 10 ^ (L - 16) < 10 ^ 18 * 10 ^ (L - 16) := by
    calc (x.digits : ℚ) * 10 ^ (L - 16) ≤ x.digits * 10 ^ x.exponent := by
          gcongr
          · norm_num
          · push_cast at hexponent
            omega
      _ ≤ 2 * BinaryFormat.double.value code := le_two_mul_value_of_rounds hpos hcontains
      _ ≤ 2 * 10 ^ (L + 1) := by linarith [hlog.2]
      _ = 2 * 10 ^ 17 * 10 ^ (L - 16) := by
        rw [show L + 1 = (17 : Nat) + (L - 16) by omega, zpow_add₀ (by norm_num), zpow_natCast,
          mul_assoc]
      _ < 10 ^ 18 * 10 ^ (L - 16) := by
        gcongr
        norm_num
  exact_mod_cast lt_of_mul_lt_mul_right hdigits hunit.le

end Number

end LuaAssembly
