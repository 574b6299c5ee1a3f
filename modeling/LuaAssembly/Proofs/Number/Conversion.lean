import Mathlib
import LuaAssembly.Number
import LuaAssembly.Proofs.Number.Rounding

/-!
# Conversion of numbers

A chunk file may keep numbers in a narrower format or as integers.  What such a file holds is
expressed exactly by a number, and converting that number again gives what the file holds.  For
the narrower format this rests on its values being among the numbers; for integers, on the integer
part of a number having no more binary digits than a number has, however it is cut.
-/
namespace LuaAssembly.Number

/-! ## Sign and magnitude -/

theorem ofCode_self (v : Number) : ofCode v.isNegative v.magnitude = v := by
  obtain ⟨bits⟩ := v
  have hlt : bits.toNat < 2 ^ 64 := bits.isLt
  simp only [ofCode, isNegative, magnitude, BitVec.msb_eq_decide, decide_eq_true_eq,
    show BinaryFormat.double.signBit = 2 ^ 63 by decide]
  congr 1
  apply BitVec.eq_of_toNat_eq
  rw [BitVec.toNat_ofNat]
  split_ifs <;> omega

theorem magnitude_ofCode (negative : Bool) {code : Nat}
    (h : code ≤ BinaryFormat.double.infinity) : (ofCode negative code).magnitude = code := by
  have hinf : BinaryFormat.double.infinity = 2 ^ 63 - 2 ^ 52 := by decide
  simp only [ofCode, magnitude, BitVec.toNat_ofNat,
    show BinaryFormat.double.signBit = 2 ^ 63 by decide]
  split_ifs <;> omega

theorem isNegative_ofCode (negative : Bool) {code : Nat}
    (h : code ≤ BinaryFormat.double.infinity) : (ofCode negative code).isNegative = negative := by
  have hinf : BinaryFormat.double.infinity = 2 ^ 63 - 2 ^ 52 := by decide
  simp only [ofCode, isNegative, BitVec.msb_eq_decide, BitVec.toNat_ofNat,
    show BinaryFormat.double.signBit = 2 ^ 63 by decide]
  cases negative with
  | false => exact decide_eq_false (by simp; omega)
  | true => exact decide_eq_true (by simp; omega)

theorem isNaN_ofCode (negative : Bool) {code : Nat} (h : code ≤ BinaryFormat.double.infinity) :
    (ofCode negative code).isNaN = false := by
  rw [isNaN, magnitude_ofCode negative h]
  exact decide_eq_false (Nat.not_lt.2 h)

/-! ## Ratios that are numbers -/

/-- A ratio with few enough binary digits and within range is the value of the code that it is
converted to. -/
theorem value_toBinary {num den a k : Nat} (hden : 0 < den) (ha : a < 2 ^ 53)
    (hratio : (num / den : ℚ) = a * 2 ^ (BinaryFormat.double.minExponent + k))
    (hrange : (num / den : ℚ) < 2 ^ (1024 : Int)) :
    Ratio.toBinary .double num den < BinaryFormat.double.infinity ∧
      BinaryFormat.double.value (Ratio.toBinary .double num den) = num / den := by
  obtain ⟨code, hvalue⟩ : ∃ code, BinaryFormat.double.value code = num / den := by
    rw [hratio]
    rcases Nat.eq_zero_or_pos a with rfl | hpos
    · exact ⟨0, by simp [BinaryFormat.value_zero]⟩
    · obtain ⟨code, -, hvalue⟩ := BinaryFormat.exists_value_eq (F := .double) (k := k) hpos ha
      exact ⟨code, hvalue⟩
  rw [Ratio.toBinary_value hden hvalue.symm]
  refine ⟨?_, hvalue⟩
  by_contra hge
  have hle := BinaryFormat.le_value_of_infinity_le (F := .double) (by decide) (Nat.not_lt.1 hge)
  rw [hvalue] at hle
  exact absurd hrange (not_lt.2 hle)

/-- The ratio that stands for the digits of a code has the value of the code. -/
theorem scale2_decompose (F : BinaryFormat) (code : Nat) :
    (((Ratio.scale2 (F.decompose code).1 1 (F.decompose code).2).1 : ℚ) /
      (Ratio.scale2 (F.decompose code).1 1 (F.decompose code).2).2) = F.value code := by
  rw [Ratio.scale2_div, Nat.cast_one, div_one, BinaryFormat.value]

/-! ## The narrower format -/

/-- The sign of a code. -/
def signCode (F : BinaryFormat) (negative : Bool) : Nat :=
  if negative then F.signBit else 0

theorem narrow_of_isNaN (F : BinaryFormat) {v : Number} (h : v.isNaN = true) :
    v.narrow F = signCode F v.isNegative + F.infinity + 2 ^ (F.fractionBits - 1) := by
  simp only [narrow, h, if_true]
  rfl

/-- A number is narrowed to a sign and a magnitude that is at most infinity. -/
theorem narrow_of_not_isNaN (F : BinaryFormat) {v : Number} (h : v.isNaN = false) :
    ∃ magnitude ≤ F.infinity, v.narrow F = signCode F v.isNegative + magnitude := by
  simp only [narrow, h, Bool.false_eq_true, if_false]
  by_cases hinf : v.isInfinite = true
  · rw [if_pos hinf]
    exact ⟨_, le_rfl, rfl⟩
  · rw [if_neg hinf]
    exact ⟨_, min_le_left .., rfl⟩

theorem narrow_single_lt (v : Number) : v.narrow .single < 2 ^ 32 := by
  have hsign : signCode .single v.isNegative ≤ 2 ^ 31 := by
    cases v.isNegative <;> decide
  have hinf : BinaryFormat.single.infinity = 2 ^ 31 - 2 ^ 23 := by decide
  cases h : v.isNaN with
  | true =>
    rw [narrow_of_isNaN _ h, show BinaryFormat.single.fractionBits - 1 = 22 by decide]
    omega
  | false =>
    obtain ⟨magnitude, hle, hnarrow⟩ := narrow_of_not_isNaN .single h
    omega

/-- A number with a value of the narrower format is narrowed to its code. -/
theorem narrow_ofCode {F : BinaryFormat} (negative : Bool) {code magnitude : Nat}
    (hcode : code < BinaryFormat.double.infinity) (hmagnitude : magnitude ≤ F.infinity)
    (hvalue : BinaryFormat.double.value code = F.value magnitude) :
    (ofCode negative code).narrow F = signCode F negative + magnitude := by
  have hsame := magnitude_ofCode negative hcode.le
  have hinf : (ofCode negative code).isInfinite = false := by
    rw [isInfinite, hsame]
    exact decide_eq_false hcode.ne
  simp only [narrow, isNaN_ofCode negative hcode.le, hinf, hsame,
    isNegative_ofCode negative hcode.le, Bool.false_eq_true, if_false]
  rw [Ratio.toBinary_value (Ratio.scale2_snd_pos _ Nat.one_pos _)
    ((scale2_decompose _ _).trans hvalue), min_eq_right hmagnitude]
  rfl

/-- The values of the 32-bit format are numbers. -/
theorem value_toBinary_single {magnitude : Nat} (h : magnitude < BinaryFormat.single.infinity) :
    let digits := BinaryFormat.single.decompose magnitude
    let ratio := Ratio.scale2 digits.1 1 digits.2
    Ratio.toBinary .double ratio.1 ratio.2 < BinaryFormat.double.infinity ∧
      BinaryFormat.double.value (Ratio.toBinary .double ratio.1 ratio.2) =
        BinaryFormat.single.value magnitude := by
  intro digits ratio
  have hratio : (ratio.1 / ratio.2 : ℚ) = BinaryFormat.single.value magnitude :=
    scale2_decompose _ _
  obtain ⟨m, k, hdec, hsum, hm, -⟩ := BinaryFormat.single.decompose_spec magnitude
  have hinf : BinaryFormat.single.infinity = 255 * 2 ^ 23 := by decide
  have hm' : m < 2 ^ 24 := hm
  have hk : k < 255 := by
    have : k * 2 ^ 23 + m < 255 * 2 ^ 23 := by rw [← hinf]; exact hsum ▸ h
    omega
  -- The smallest exponent of the narrower format is 925 above that of the wider one.
  have hvalue : BinaryFormat.single.value magnitude =
      m * 2 ^ (BinaryFormat.double.minExponent + ((925 + k : Nat) : Int)) := by
    rw [BinaryFormat.value, hdec, show BinaryFormat.single.minExponent = -149 by decide,
      show BinaryFormat.double.minExponent = -1074 by decide]
    congr 2
    push_cast
    omega
  have hrange : BinaryFormat.single.value magnitude < 2 ^ (1024 : Int) := by
    rw [hvalue, show BinaryFormat.double.minExponent = -1074 by decide]
    calc (m : ℚ) * 2 ^ (-1074 + ((925 + k : Nat) : Int))
        < 2 ^ (24 : Int) * 2 ^ (-1074 + ((925 + k : Nat) : Int)) := by
          gcongr
          exact_mod_cast hm'
      _ = 2 ^ (24 + (-1074 + ((925 + k : Nat) : Int))) := (zpow_add₀ (by norm_num) _ _).symm
      _ ≤ 2 ^ (1024 : Int) := zpow_le_zpow_right₀ (by norm_num) (by push_cast; omega)
  have hspec := value_toBinary (Ratio.scale2_snd_pos digits.1 Nat.one_pos digits.2)
    (hm'.trans (by decide)) (hratio.trans hvalue) (hratio.trans_lt hrange)
  exact ⟨hspec.1, hspec.2.trans hratio⟩

/-- What is read from a code of the 32-bit format that is a number is a number, and is narrowed to
the same code. -/
theorem narrow_widen (negative : Bool) {magnitude : Nat}
    (h : magnitude ≤ BinaryFormat.single.infinity) :
    (widen .single (signCode .single negative + magnitude)).isNaN = false ∧
      (widen .single (signCode .single negative + magnitude)).narrow .single =
        signCode .single negative + magnitude := by
  have hsign : BinaryFormat.single.signBit = 2 ^ 31 := by decide
  have hinf : BinaryFormat.single.infinity = 2 ^ 31 - 2 ^ 23 := by decide
  have hnegative : decide (BinaryFormat.single.signBit ≤
      (signCode .single negative + magnitude) % (2 * BinaryFormat.single.signBit)) = negative := by
    cases negative with
    | false => exact decide_eq_false (by simp [signCode, hsign]; omega)
    | true => exact decide_eq_true (by simp [signCode, hsign]; omega)
  have hmagnitude : (signCode .single negative + magnitude) % BinaryFormat.single.signBit =
      magnitude := by
    rw [signCode, hsign]
    split_ifs <;> omega
  rcases h.lt_or_eq with hlt | rfl
  · obtain ⟨hcode, hvalue⟩ := value_toBinary_single hlt
    simp only [widen, hnegative, hmagnitude, if_neg h.not_gt, if_neg hlt.ne]
    exact ⟨isNaN_ofCode _ hcode.le, narrow_ofCode _ hcode h hvalue⟩
  · cases negative <;> decide

/-- Narrowing is stable: a number that was narrowed and widened again is narrowed to the same
code. -/
theorem narrow_widen_narrow (v : Number) :
    (widen .single (v.narrow .single)).isNaN = v.isNaN ∧
      (widen .single (v.narrow .single)).narrow .single = v.narrow .single := by
  cases h : v.isNaN with
  | false =>
    obtain ⟨magnitude, hle, hnarrow⟩ := narrow_of_not_isNaN .single h
    rw [hnarrow]
    exact narrow_widen _ hle
  | true =>
    rw [narrow_of_isNaN _ h]
    cases v.isNegative <;> decide

/-! ## Integers -/

/-- The integer has no more binary digits, zeros at the end apart, than a number has. -/
def HasInt (n : Int) : Prop :=
  ∃ a k : Nat, a < 2 ^ 53 ∧ n.natAbs = a * 2 ^ k

theorem hasInt_truncate (v : Number) : HasInt v.truncate := by
  obtain ⟨m, k, hdec, -, hm, -⟩ := BinaryFormat.double.decompose_spec v.magnitude
  have hm' : m < 2 ^ 53 := hm
  have habs : v.truncate.natAbs =
      (Ratio.scale2 m 1 (BinaryFormat.double.minExponent + k)).1 /
        (Ratio.scale2 m 1 (BinaryFormat.double.minExponent + k)).2 := by
    simp only [truncate, hdec]
    split_ifs
    · rw [Int.natAbs_neg, Int.natAbs_natCast]
    · rw [Int.natAbs_natCast]
  rw [HasInt, habs, Ratio.scale2]
  split_ifs
  · exact ⟨m, _, hm', Nat.div_one _⟩
  · exact ⟨_, 0, (Nat.div_le_self ..).trans_lt hm', by rw [Nat.pow_zero, Nat.mul_one]⟩

/-- The low digits of such an integer, read as a signed integer, are such an integer. -/
theorem HasInt.bmod {n : Int} (h : HasInt n) (w : Nat) : HasInt (n.bmod (2 ^ w)) := by
  obtain ⟨a, k, ha, hn⟩ := h
  have hdvd : (2 ^ k : Int) ∣ n := by
    refine Int.natAbs_dvd_natAbs.1 ?_
    rw [hn, Int.natAbs_pow]
    exact Nat.dvd_mul_left ..
  have hcast : ∀ i, ((2 ^ i : Nat) : Int) = 2 ^ i := fun i => by simp
  rcases Nat.lt_or_ge k w with hkw | hwk
  · -- Zeros at the end stay, so that few digits remain, or else nothing is cut.
    have hlow : (2 ^ k : Int) ∣ n.bmod (2 ^ w) := by
      rw [Int.bmod_eq_self_sub_mul_bdiv, hcast]
      exact Int.dvd_sub hdvd (Int.dvd_mul_of_dvd_left (pow_dvd_pow 2 hkw.le))
    obtain ⟨c, hc⟩ := hlow
    have hsplit : (2 ^ w : Nat) = 2 * (2 ^ k * 2 ^ (w - 1 - k)) := by
      rw [← Nat.pow_add, ← Nat.pow_succ']
      congr 1
      omega
    have hlo := Int.le_bmod (x := n) (Nat.two_pow_pos w)
    have hhi := Int.bmod_lt (x := n) (Nat.two_pow_pos w)
    have hbound : (n.bmod (2 ^ w)).natAbs ≤ 2 ^ k * 2 ^ (w - 1 - k) := by omega
    rw [hc, Int.natAbs_mul, Int.natAbs_pow] at hbound
    have hc' : c.natAbs ≤ 2 ^ (w - 1 - k) :=
      Nat.le_of_mul_le_mul_left hbound (Nat.two_pow_pos k)
    rcases Nat.lt_or_ge (w - 1 - k) 53 with hfew | hmany
    · refine ⟨c.natAbs, k, hc'.trans_lt (Nat.pow_lt_pow_right (by decide) hfew), ?_⟩
      rw [hc, Int.natAbs_mul, Int.natAbs_pow, Nat.mul_comm]
      rfl
    · have hlt : n.natAbs < 2 ^ k * 2 ^ (w - 1 - k) := by
        rw [hn, Nat.mul_comm]
        refine Nat.mul_lt_mul_of_pos_left (ha.trans_le ?_) (Nat.two_pow_pos k)
        exact Nat.pow_le_pow_right (by decide) hmany
      rw [Int.bmod_eq_of_le (by omega) (by omega)]
      exact ⟨a, k, ha, hn⟩
  · have hzero : n.bmod (2 ^ w) = 0 := by
      refine Int.bmod_eq_zero_of_dvd ?_
      rw [hcast]
      exact (pow_dvd_pow 2 hwk).trans hdvd
    rw [hzero]
    exact ⟨0, 0, by decide, rfl⟩

/-- An integer with few enough binary digits becomes a number, of which it is the integer part. -/
theorem truncate_ofInt {n : Int} (h : HasInt n) (hrange : n.natAbs ≤ 2 ^ 64) :
    (ofInt n).isNaN = false ∧ (ofInt n).truncate = n := by
  obtain ⟨a, k, ha, hn⟩ := h
  have hratio : ((n.natAbs : ℚ) / (1 : Nat)) =
      a * 2 ^ (BinaryFormat.double.minExponent + ((1074 + k : Nat) : Int)) := by
    rw [show BinaryFormat.double.minExponent = -1074 by decide, hn]
    push_cast
    rw [neg_add_cancel_left, zpow_natCast, div_one]
  have hlt : ((n.natAbs : ℚ) / (1 : Nat)) < 2 ^ (1024 : Int) := by
    have hle : (n.natAbs : ℚ) ≤ 2 ^ (64 : Int) := by exact_mod_cast hrange
    rw [Nat.cast_one, div_one]
    exact hle.trans_lt (zpow_lt_zpow_right₀ (by norm_num) (by norm_num))
  obtain ⟨hcode, hvalue⟩ := value_toBinary Nat.one_pos ha hratio hlt
  refine ⟨isNaN_ofCode _ hcode.le, ?_⟩
  rw [ofInt]
  generalize Ratio.toBinary .double n.natAbs 1 = code at hcode hvalue
  -- The digits of the code make a fraction whose value is the integer, so the division is exact.
  have hquotient := (scale2_decompose .double code).trans hvalue
  have hpos := Ratio.scale2_snd_pos (BinaryFormat.double.decompose code).1 Nat.one_pos
    (BinaryFormat.double.decompose code).2
  simp only [truncate, magnitude_ofCode _ hcode.le, isNegative_ofCode _ hcode.le]
  generalize Ratio.scale2 (BinaryFormat.double.decompose code).1 1
    (BinaryFormat.double.decompose code).2 = ratio at hquotient hpos
  have hdiv : ratio.1 / ratio.2 = n.natAbs := by
    rw [Nat.cast_one, div_one, div_eq_iff (by positivity)] at hquotient
    have : ratio.1 = n.natAbs * ratio.2 := by exact_mod_cast hquotient
    rw [this, Nat.mul_div_cancel _ hpos]
  rw [hdiv]
  split_ifs with hneg
  · have : n < 0 := by simpa using hneg
    omega
  · have : ¬ n < 0 := by simpa using hneg
    omega

end LuaAssembly.Number
