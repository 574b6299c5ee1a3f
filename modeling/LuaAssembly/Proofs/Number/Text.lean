import Mathlib
import LuaAssembly.Number.Numeral
import LuaAssembly.Proofs.Bytes.Numeral
import LuaAssembly.Proofs.Number.Conversion
import LuaAssembly.Proofs.Number.Shortest

/-!
# Written numbers are read back

A numeral with a point and an exponent denotes its digits times a power of ten, and reading takes
whatever rounds to a number to that number.  The shortest digits of a number round to it, so the
text of every number other than those that are not numbers is read as the same number, bit for
bit.
-/
namespace LuaAssembly.Number

/-! ## Decimals that round to a number -/

/-- The ends of the range of finite numbers between powers of ten. -/
theorem range_lt_pow_ten :
    (2 : ℚ) ^ (1024 : Int) < 10 ^ (309 : Int) ∧ (10 : ℚ) ^ (-325 : Int) < 2 ^ (-1075 : Int) := by
  have hhi : 2 ^ 1024 < 10 ^ 309 := by decide +kernel
  have hlo : 2 ^ 1075 < 10 ^ 325 := by decide +kernel
  have hhi' : (2 : ℚ) ^ 1024 < 10 ^ 309 := by exact_mod_cast hhi
  have hlo' : (2 : ℚ) ^ 1075 < 10 ^ 325 := by exact_mod_cast hlo
  refine ⟨hhi', ?_⟩
  rw [zpow_neg, zpow_neg]
  exact inv_strictAnti₀ (by positivity) hlo'

/-- Reading a decimal that rounds to a finite number gives that number. -/
theorem ofDecimal?_of_rounds (negative : Bool) {code value : Nat} {e : Int} (hcode : 0 < code)
    (hfin : code < BinaryFormat.double.infinity)
    (h : BinaryFormat.double.Rounds code (value * 10 ^ e)) (hvalue : (value : ℚ) < 2 ^ (1024 : Int)) :
    ofDecimal? negative value e = some (ofCode negative code) := by
  obtain ⟨hlo, hhi⟩ := bounds_of_rounds hcode hfin h
  have hpos : 0 < value := by
    rcases Nat.eq_zero_or_pos value with rfl | hpos
    · rw [Nat.cast_zero, zero_mul] at hlo
      exact absurd hlo (not_le.2 (by positivity))
    · exact hpos
  have hlog : Ratio.log2 value 1 < 1024 := Ratio.log2_lt hpos one_pos (by simpa using hvalue)
  have hlog' : 0 ≤ Ratio.log2 value 1 := by
    apply Ratio.le_log2 hpos one_pos
    rw [Nat.cast_one, div_one]
    exact_mod_cast hpos
  obtain ⟨hten, hten'⟩ := Ratio.log10_spec hpos one_pos (by omega) (by omega)
  rw [Nat.cast_one, div_one] at hten hten'
  -- The place of the leading digit is in the range in which the power is computed.
  have hleading : Ratio.log10 value 1 + e < 309 := by
    have : (10 : ℚ) ^ (Ratio.log10 value 1 + e) < 10 ^ (309 : Int) := by
      calc (10 : ℚ) ^ (Ratio.log10 value 1 + e) ≤ value * 10 ^ e := by
            rw [zpow_add₀ (by norm_num)]
            gcongr
        _ < 2 ^ (1024 : Int) := hhi
        _ < 10 ^ (309 : Int) := range_lt_pow_ten.1
    exact (zpow_lt_zpow_iff_right₀ (by norm_num)).1 this
  have hleading' : -325 < Ratio.log10 value 1 + 1 + e := by
    have : (10 : ℚ) ^ (-325 : Int) < 10 ^ (Ratio.log10 value 1 + 1 + e) := by
      calc (10 : ℚ) ^ (-325 : Int) < 2 ^ (-1075 : Int) := range_lt_pow_ten.2
        _ ≤ value * 10 ^ e := hlo
        _ < 10 ^ (Ratio.log10 value 1 + 1 + e) := by
          rw [zpow_add₀ (by norm_num)]
          gcongr
    exact (zpow_lt_zpow_iff_right₀ (by norm_num)).1 this
  have hbinary : Ratio.toBinary .double (Ratio.scale10 value 1 e).1 (Ratio.scale10 value 1 e).2 =
      code := by
    refine Ratio.toBinary_of_rounds (Ratio.scale10_fst_pos hpos _ _)
      (Ratio.scale10_snd_pos _ one_pos _) ?_
    rw [Ratio.scale10_div, Nat.cast_one, div_one]
    exact h
  rw [ofDecimal?, if_neg hpos.ne']
  simp only [ofRatio?, hbinary, if_pos hfin]
  rw [if_neg (by omega), if_neg (by omega)]

/-! ## Reading digits, a point and an exponent -/

/-- Digits with a point in front of the last ones, if there are any. -/
def pointed (whole part : Bytes) : Bytes :=
  whole ++ (if part = [] then [] else 0x2E :: part)

theorem digitIn?_of_isDigit {b : UInt8} (h : Bytes.isDigit b) :
    digitIn? 10 b = some (b.toNat - 0x30) := by
  have hle : 0x30 ≤ b ∧ b ≤ 0x39 := by simpa [Bytes.isDigit] using h
  obtain ⟨hlo, hhi⟩ := Numeral.isDigit_iff.1 h
  simp only [digitIn?, Bytes.hexValue?, if_pos hle]
  rw [if_pos (by omega)]

theorem mantissa_digits {ds : Bytes} (h : Numeral.Digits ds) (acc : Mantissa) (rest : Bytes) :
    mantissa 10 acc (ds ++ rest) =
      mantissa 10 ⟨Numeral.valueOnto acc.value ds,
        if acc.pointed then acc.places + ds.length else acc.places,
        acc.nonempty || decide (ds ≠ []), acc.pointed⟩ rest := by
  induction ds generalizing acc with
  | nil => simp
  | cons d ds ih =>
    rw [List.cons_append, mantissa, digitIn?_of_isDigit h.head]
    simp only
    rw [ih h.tail]
    congr 1
    cases hp : acc.pointed
    · simp
    · simp only [if_true, List.length_cons, Mantissa.mk.injEq]
      exact ⟨by simp, by omega, by simp, trivial⟩

/-- Where the digits of a numeral end: at its end or at the letter of the exponent. -/
theorem mantissa_stop (acc : Mantissa) {rest : Bytes} (h : rest = [] ∨ ∃ tail, rest = 0x65 :: tail) :
    mantissa 10 acc rest = (acc, rest) := by
  rcases h with rfl | ⟨tail, rfl⟩
  · rfl
  · rw [mantissa]
    rfl

theorem mantissa_pointed {whole part rest : Bytes} (hw : Numeral.Digits whole) (hne : whole ≠ [])
    (hp : Numeral.Digits part) (hrest : rest = [] ∨ ∃ tail, rest = 0x65 :: tail) :
    mantissa 10 ⟨0, 0, false, false⟩ (pointed whole part ++ rest) =
      (⟨Numeral.valueOnto 0 (whole ++ part), part.length, true, decide (part ≠ [])⟩, rest) := by
  rw [pointed, List.append_assoc, mantissa_digits hw]
  by_cases hpart : part = []
  · subst hpart
    simp [mantissa_stop _ hrest, hne]
  · rw [if_neg hpart, List.cons_append, mantissa, show digitIn? 10 0x2E = none by decide]
    simp only [Bool.false_eq_true, not_false_eq_true, and_self, if_true, if_false]
    rw [mantissa_digits hp, mantissa_stop _ hrest]
    simp [hpart, hne, Numeral.valueOnto_append]

theorem underscoresSeparate_of_not_mem {base : Nat} {bs : Bytes} (h : 0x5F ∉ bs)
    (digitBefore : Bool) : underscoresSeparate base digitBefore bs := by
  induction bs generalizing digitBefore with
  | nil => rfl
  | cons b bs ih =>
    rw [List.mem_cons, not_or] at h
    rw [underscoresSeparate.eq_def]
    simp only [if_neg (Ne.symm h.1)]
    exact ih h.2 _

theorem parts?_pointed {whole part rest : Bytes} (hw : Numeral.Digits whole) (hne : whole ≠ [])
    (hp : Numeral.Digits part) (hrest : rest = [] ∨ ∃ tail, rest = 0x65 :: tail)
    (hunder : 0x5F ∉ rest) :
    parts? 10 0x65 false (pointed whole part ++ rest) =
      some (⟨Numeral.valueOnto 0 (whole ++ part), part.length, true, decide (part ≠ [])⟩,
        if rest = [] then none else some rest.tail) := by
  have hdigits : ∀ {ds : Bytes}, Numeral.Digits ds → 0x5F ∉ ds := by
    intro ds hds hmem
    exact absurd (hds _ hmem) (by decide)
  have hnot : 0x5F ∉ pointed whole part ++ rest := by
    rw [pointed]
    split_ifs
    · simp [hdigits hw, hunder]
    · simp [hdigits hw, hdigits hp, hunder]
  have hfilter : (pointed whole part ++ rest).filter (· ≠ 0x5F) = pointed whole part ++ rest := by
    rw [List.filter_eq_self]
    intro b hb
    simp only [decide_eq_true_eq]
    rintro rfl
    exact hnot hb
  rw [parts?, if_pos (underscoresSeparate_of_not_mem hnot false), hfilter,
    mantissa_pointed hw hne hp hrest]
  rcases hrest with rfl | ⟨tail, rfl⟩ <;> rfl

/-- A numeral without an exponent. -/
theorem decimal?_pointed (negative : Bool) {whole part : Bytes} (hw : Numeral.Digits whole)
    (hne : whole ≠ []) (hp : Numeral.Digits part) :
    decimal? negative (pointed whole part) =
      ofDecimal? negative (Numeral.valueOnto 0 (whole ++ part)) (-part.length) := by
  have h := parts?_pointed hw hne hp (.inl rfl) (List.not_mem_nil)
  rw [List.append_nil, if_pos rfl] at h
  rw [decimal?, h]

theorem exponentValue?_digits {ds : Bytes} (h : Numeral.Digits ds) {acc : Nat}
    (hlt : Numeral.valueOnto acc ds < 100000) :
    exponentValue? acc ds = some (Numeral.valueOnto acc ds) := by
  induction ds generalizing acc with
  | nil => rfl
  | cons d ds ih =>
    rw [Numeral.valueOnto_cons] at hlt ⊢
    have hle := Numeral.le_valueOnto (acc * 10 + (d.toNat - 0x30)) ds
    rw [exponentValue?, if_pos h.head, if_pos (by omega), ih h.tail hlt]

/-- The exponent is written with its sign and at least two digits. -/
theorem exponent?_atLeastTwo {e : Int} (he : e.natAbs < 100000) :
    exponent? ((if e < 0 then 0x2D else 0x2B) :: Numeral.atLeastTwo e.natAbs) = some e := by
  obtain ⟨hdigits, hne, hvalue⟩ := Numeral.ofNat_spec e.natAbs
  have htwo : Numeral.Digits (Numeral.atLeastTwo e.natAbs) ∧
      Numeral.atLeastTwo e.natAbs ≠ [] ∧
      Numeral.valueOnto 0 (Numeral.atLeastTwo e.natAbs) = e.natAbs := by
    rw [Numeral.atLeastTwo]
    split_ifs
    · refine ⟨(Numeral.digits_replicate_zero 1).append hdigits, by simp, ?_⟩
      rw [Numeral.valueOnto_cons]
      exact hvalue
    · exact ⟨hdigits, hne, hvalue⟩
  obtain ⟨hdigits', hne', hvalue'⟩ := htwo
  have hread := exponentValue?_digits hdigits' (hvalue'.trans_lt he)
  rw [hvalue'] at hread
  obtain ⟨d, ds, hds⟩ := List.exists_cons_of_ne_nil hne'
  rw [hds] at hread ⊢
  split_ifs with hneg
  · simp only [exponent?, hread]
    show some (-(e.natAbs : Int)) = some e
    congr 1
    omega
  · simp only [exponent?, hread, Option.map_some, Option.some.injEq, Int.ofNat_eq_natCast]
    omega

theorem not_mem_atLeastTwo (n : Nat) : 0x5F ∉ Numeral.atLeastTwo n := by
  intro hmem
  have hdigits := (Numeral.ofNat_spec n).1
  rw [Numeral.atLeastTwo] at hmem
  split_ifs at hmem
  · rcases List.mem_cons.1 hmem with h | h
    · cases h
    · exact absurd (hdigits _ h) (by decide)
  · exact absurd (hdigits _ hmem) (by decide)

theorem scientific_eq (d : UInt8) (ds : Bytes) (e : Int) :
    scientific (d :: ds) e =
      pointed [d] ds ++ 0x65 :: (if e < 0 then 0x2D else 0x2B) :: Numeral.atLeastTwo e.natAbs := by
  cases ds <;> simp [scientific, pointed]

/-- A numeral with an exponent. -/
theorem decimal?_scientific (negative : Bool) {d : UInt8} {ds : Bytes}
    (h : Numeral.Digits (d :: ds)) {e : Int} (he : e.natAbs < 100000) :
    decimal? negative (scientific (d :: ds) e) =
      ofDecimal? negative (Numeral.valueOnto 0 (d :: ds)) (e - ds.length) := by
  have hwhole : Numeral.Digits [d] := by
    intro b hb
    rw [List.mem_singleton.1 hb]
    exact h.head
  have hunder : 0x5F ∉
      0x65 :: (if e < 0 then 0x2D else 0x2B) :: Numeral.atLeastTwo e.natAbs := by
    split_ifs <;> simp [not_mem_atLeastTwo]
  have hparts := parts?_pointed hwhole (by simp) h.tail (.inr ⟨_, rfl⟩) hunder
  rw [if_neg (List.cons_ne_nil _ _), List.tail_cons] at hparts
  rw [scientific_eq, decimal?, hparts]
  simp only [exponent?_atLeastTwo he]
  rfl

theorem positional_neg (ds : Bytes) (hne : ds ≠ []) (n : Nat) :
    positional ds (-n) = pointed [0x30] (List.replicate n 0x30 ++ ds) := by
  rw [positional, if_pos (by omega), pointed, if_neg (by simp [hne]), neg_neg, Int.toNat_natCast]
  simp [show utf8 "0." = [0x30, 0x2E] by decide]

theorem positional_pos (ds : Bytes) {n : Nat} (hn : 0 < n) :
    positional ds n =
      pointed (ds.take n ++ List.replicate (n - ds.length) 0x30) (ds.drop n) := by
  rw [positional, if_neg (by omega), pointed, Int.toNat_natCast]

theorem cast_lt_range {n : Nat} (h : n < 10 ^ 18) : (n : ℚ) < 2 ^ (1024 : Int) := by
  calc (n : ℚ) < 10 ^ 18 := by exact_mod_cast h
    _ ≤ 2 ^ (60 : Int) := by norm_num
    _ ≤ 2 ^ (1024 : Int) := zpow_le_zpow_right₀ (by norm_num) (by norm_num)

/-- A number written without an exponent: the point stands where the exponent of the decimal puts
it, and zeros fill up what is missing. -/
theorem decimal?_positional (negative : Bool) {code : Nat} {ds : Bytes} (h : Numeral.Digits ds)
    (hne : ds ≠ []) {places : Int} (hcode : 0 < code)
    (hfin : code < BinaryFormat.double.infinity) (hvalue : Numeral.valueOnto 0 ds < 10 ^ 18)
    (hrounds : BinaryFormat.double.Rounds code
      (Numeral.valueOnto 0 ds * 10 ^ (places - ds.length))) :
    decimal? negative (positional ds places) = some (ofCode negative code) := by
  have hsmall := cast_lt_range hvalue
  by_cases hplaces : places ≤ 0
  · -- The point stands in front of all digits.
    obtain ⟨n, rfl⟩ : ∃ n : Nat, places = -n := ⟨(-places).toNat, by omega⟩
    have hpart := (Numeral.digits_replicate_zero n).append h
    have hread : Numeral.valueOnto 0 ([0x30] ++ (List.replicate n 0x30 ++ ds)) =
        Numeral.valueOnto 0 ds := by
      rw [Numeral.valueOnto_append, Numeral.valueOnto_append, Numeral.valueOnto_replicate_zero]
      simp
    have hzero : Numeral.Digits [0x30] := Numeral.digits_replicate_zero 1
    rw [positional_neg ds hne, decimal?_pointed negative hzero (by simp) hpart, hread]
    refine ofDecimal?_of_rounds negative hcode hfin ?_ hsmall
    convert hrounds using 3
    simp only [List.length_append, List.length_replicate]
    omega
  · obtain ⟨n, rfl⟩ := Int.eq_ofNat_of_zero_le (by omega : 0 ≤ places)
    have htake : Numeral.Digits (ds.take n) := fun b hb => h b (List.mem_of_mem_take hb)
    have hdrop : Numeral.Digits (ds.drop n) := fun b hb => h b (List.mem_of_mem_drop hb)
    have hwhole := htake.append (Numeral.digits_replicate_zero (n - ds.length))
    have hwne : ds.take n ++ List.replicate (n - ds.length) 0x30 ≠ [] := by
      have : n ≠ 0 := by omega
      simp [hne, this]
    rw [positional_pos ds (by omega), decimal?_pointed negative hwhole hwne hdrop]
    rcases Nat.lt_or_ge n ds.length with hlt | hge
    · -- The point stands between digits, so no zeros are filled in.
      have hpad : n - ds.length = 0 := by omega
      rw [hpad, List.replicate_zero, List.append_nil, List.take_append_drop]
      refine ofDecimal?_of_rounds negative hcode hfin ?_ hsmall
      convert hrounds using 3
      rw [List.length_drop]
      omega
    · -- There is no point, and the zeros that are filled in count as digits.
      rw [List.take_of_length_le hge, List.drop_of_length_le hge, List.append_nil,
        Numeral.valueOnto_append, Numeral.valueOnto_replicate_zero]
      have hscale : ((Numeral.valueOnto 0 ds * 10 ^ (n - ds.length) : Nat) : ℚ) =
          Numeral.valueOnto 0 ds * 10 ^ ((n : Int) - ds.length) := by
        rw [← Int.ofNat_sub hge, zpow_natCast]
        push_cast
        rfl
      refine ofDecimal?_of_rounds negative hcode hfin ?_ ?_
      · rw [hscale]
        simpa using hrounds
      · rw [hscale]
        exact (bounds_of_rounds hcode hfin hrounds).2

/-! ## Texts of numbers -/

/-- The bytes of a numeral: digits, point, letter and sign of the exponent. -/
def IsNumeralByte (b : UInt8) : Prop :=
  Bytes.isDigit b ∨ b ∈ [0x2E, 0x65, 0x2B, 0x2D]

instance (b : UInt8) : Decidable (IsNumeralByte b) :=
  inferInstanceAs (Decidable (_ ∨ _))

theorem isNumeralByte_of_digits {ds : Bytes} (h : Numeral.Digits ds) :
    ∀ b ∈ ds, IsNumeralByte b :=
  fun b hb => .inl (h b hb)

theorem isNumeralByte_pointed {whole part : Bytes} (hw : Numeral.Digits whole)
    (hp : Numeral.Digits part) : ∀ b ∈ pointed whole part, IsNumeralByte b := by
  rw [pointed]
  split_ifs
  · rw [List.append_nil]
    exact isNumeralByte_of_digits hw
  · rw [List.forall_mem_append, List.forall_mem_cons]
    exact ⟨isNumeralByte_of_digits hw, .inr (by decide), isNumeralByte_of_digits hp⟩

theorem isNumeralByte_atLeastTwo (n : Nat) : ∀ b ∈ Numeral.atLeastTwo n, IsNumeralByte b := by
  have hdigits := isNumeralByte_of_digits (Numeral.ofNat_spec n).1
  rw [Numeral.atLeastTwo]
  split_ifs
  · rw [List.forall_mem_cons]
    exact ⟨.inl (by decide), hdigits⟩
  · exact hdigits

/-- The text of a decimal has digits, perhaps with a point, and perhaps an exponent. -/
theorem layOut_eq (L : Layout) (x : Decimal) : ∃ whole part tail,
    layOut L x = pointed whole part ++ tail ∧ Numeral.Digits whole ∧ whole ≠ [] ∧
      Numeral.Digits part ∧ ∀ b ∈ tail, IsNumeralByte b := by
  obtain ⟨hdigits, hne, -⟩ := Numeral.ofNat_spec x.digits
  obtain ⟨ds, hds⟩ : ∃ ds, ds = Numeral.ofNat x.digits := ⟨_, rfl⟩
  simp only [layOut]
  rw [← hds] at hdigits hne ⊢
  obtain ⟨leading, hleading⟩ : ∃ leading, leading = x.exponent + ds.length - 1 := ⟨_, rfl⟩
  rw [← hleading]
  split_ifs
  · -- with an exponent
    obtain ⟨d, ds, rfl⟩ := List.exists_cons_of_ne_nil hne
    refine ⟨[d], ds, _, scientific_eq d ds leading, ?_, by simp, hdigits.tail, ?_⟩
    · intro b hb
      rw [List.mem_singleton.1 hb]
      exact hdigits.head
    · rw [List.forall_mem_cons, List.forall_mem_cons]
      refine ⟨.inr (by decide), .inr ?_, isNumeralByte_atLeastTwo _⟩
      split_ifs <;> decide
  · rcases le_or_gt (leading + 1) 0 with hle | hgt
    · obtain ⟨n, hn⟩ : ∃ n : Nat, leading + 1 = -n := ⟨(-(leading + 1)).toNat, by omega⟩
      refine ⟨_, _, [], ?_, Numeral.digits_replicate_zero 1, by simp,
        (Numeral.digits_replicate_zero n).append hdigits, by simp⟩
      rw [hn, positional_neg ds hne, List.append_nil]
      rfl
    · obtain ⟨n, hn⟩ := Int.eq_ofNat_of_zero_le hgt.le
      have htake : Numeral.Digits (ds.take n) := fun b hb => hdigits b (List.mem_of_mem_take hb)
      have hdrop : Numeral.Digits (ds.drop n) := fun b hb => hdigits b (List.mem_of_mem_drop hb)
      refine ⟨_, _, [], ?_, htake.append (Numeral.digits_replicate_zero (n - ds.length)), ?_,
        hdrop, by simp⟩
      · rw [hn, positional_pos ds (by omega), List.append_nil]
      · have : n ≠ 0 := by omega
        simp [hne, this]

theorem layOut_head (L : Layout) (x : Decimal) :
    ∃ b rest, layOut L x = b :: rest ∧ Bytes.isDigit b ∧ ∀ c ∈ rest, IsNumeralByte c := by
  obtain ⟨whole, part, tail, heq, hw, hne, hp, htail⟩ := layOut_eq L x
  obtain ⟨d, ds, rfl⟩ := List.exists_cons_of_ne_nil hne
  refine ⟨d, pointed ds part ++ tail, heq, hw.head, ?_⟩
  rw [List.forall_mem_append]
  exact ⟨isNumeralByte_pointed hw.tail hp, htail⟩

theorem lowerAscii_of_isDigit {b : UInt8} (h : Bytes.isDigit b) : Bytes.lowerAscii b = b := by
  obtain ⟨hlo, hhi⟩ := Numeral.isDigit_iff.1 h
  rw [Bytes.lowerAscii, if_neg]
  rintro ⟨hle, -⟩
  rw [UInt8.le_iff_toNat_le] at hle
  have : (0x41 : UInt8).toNat = 0x41 := rfl
  omega

/-- What starts with a digit and goes on as a numeral does is neither hexadecimal nor a word. -/
theorem unsigned?_numeral (negative : Bool) {b : UInt8} {rest : Bytes} (hb : Bytes.isDigit b)
    (hrest : ∀ c ∈ rest, IsNumeralByte c) :
    unsigned? negative (b :: rest) = decimal? negative (b :: rest) := by
  have hword : ∀ {c : UInt8} {w : Bytes}, ¬ Bytes.isDigit c →
      (b :: rest).map Bytes.lowerAscii ≠ c :: w := by
    rintro c w hc h
    rw [List.map_cons, lowerAscii_of_isDigit hb, List.cons.injEq] at h
    exact hc (h.1 ▸ hb)
  have hx : ∀ c ∈ rest, c ≠ 0x78 ∧ c ≠ 0x58 := by
    intro c hc
    constructor <;> rintro rfl <;> exact absurd (hrest _ hc) (by decide)
  rw [unsigned?]
  · rw [if_neg]
    rintro (h | h)
    · rw [show utf8 "inf" = [0x69, 0x6E, 0x66] by decide] at h
      exact hword (by decide) h
    · rw [show utf8 "infinity" = [0x69, 0x6E, 0x66, 0x69, 0x6E, 0x69, 0x74, 0x79] by decide] at h
      exact hword (by decide) h
  · rintro c r ⟨⟩
    exact (hx _ List.mem_cons_self).1 rfl
  · rintro c r ⟨⟩
    exact (hx _ List.mem_cons_self).2 rfl

/-- A numeral behind the sign that a number is written with. -/
theorem ofNumeral?_signed (negative : Bool) {b : UInt8} {rest : Bytes} (hb : Bytes.isDigit b)
    (hrest : ∀ c ∈ rest, IsNumeralByte c) :
    ofNumeral? ((if negative then utf8 "-" else []) ++ b :: rest) =
      decimal? negative (b :: rest) := by
  have hn : utf8 "nan" = [0x6E, 0x61, 0x6E] := by decide
  cases negative with
  | true =>
    rw [if_pos rfl, show utf8 "-" = [0x2D] by decide, List.singleton_append, ofNumeral?,
      if_neg (by rw [hn, List.map_cons, List.cons.injEq]; exact fun h => absurd h.1 (by decide))]
    exact unsigned?_numeral true hb hrest
  | false =>
    have hnan : (b :: rest).map Bytes.lowerAscii ≠ utf8 "nan" := by
      intro h
      rw [hn, List.map_cons, lowerAscii_of_isDigit hb, List.cons.injEq] at h
      rw [h.1] at hb
      exact absurd hb (by decide)
    rw [if_neg Bool.false_ne_true, List.nil_append, ofNumeral?, if_neg hnan]
    · exact unsigned?_numeral false hb hrest
    · rintro _ ⟨⟩
      exact absurd hb (by decide)
    · rintro _ ⟨⟩
      exact absurd hb (by decide)

/-- The exponent of a decimal with few digits that rounds to a finite number has few digits too. -/
theorem exponent_bounds {code n : Nat} {e : Int} (hcode : 0 < code)
    (hfin : code < BinaryFormat.double.infinity) (hn : n < 10 ^ 18)
    (h : BinaryFormat.double.Rounds code (n * 10 ^ e)) : -343 < e ∧ e < 309 := by
  obtain ⟨hlo, hhi⟩ := bounds_of_rounds hcode hfin h
  have hpow : (0 : ℚ) < 10 ^ e := by positivity
  have hone : (1 : ℚ) ≤ n := by
    have : n ≠ 0 := by
      rintro rfl
      rw [Nat.cast_zero, zero_mul] at hlo
      exact absurd hlo (not_le.2 (by positivity))
    exact_mod_cast Nat.one_le_iff_ne_zero.2 this
  constructor
  · have : (10 : ℚ) ^ (-325 : Int) < 10 ^ ((18 : Int) + e) := by
      calc (10 : ℚ) ^ (-325 : Int) < 2 ^ (-1075 : Int) := range_lt_pow_ten.2
        _ ≤ n * 10 ^ e := hlo
        _ ≤ 10 ^ (18 : Int) * 10 ^ e := by
          gcongr
          exact_mod_cast hn.le
        _ = 10 ^ ((18 : Int) + e) := (zpow_add₀ (by norm_num) _ _).symm
    have := (zpow_lt_zpow_iff_right₀ (by norm_num : (1 : ℚ) < 10)).1 this
    omega
  · have : (10 : ℚ) ^ e < 10 ^ (309 : Int) := by
      calc (10 : ℚ) ^ e ≤ n * 10 ^ e := le_mul_of_one_le_left hpow.le hone
        _ < 2 ^ (1024 : Int) := hhi
        _ < 10 ^ (309 : Int) := range_lt_pow_ten.1
    exact (zpow_lt_zpow_iff_right₀ (by norm_num)).1 this

/-- A decimal with few digits is read back from its text, under any layout. -/
theorem decimal?_layOut (negative : Bool) (L : Layout) {code : Nat} {x : Decimal}
    (hcode : 0 < code) (hfin : code < BinaryFormat.double.infinity)
    (hrounds : BinaryFormat.double.Rounds code x.value) (hdigits : x.digits < 10 ^ 18) :
    decimal? negative (layOut L x) = some (ofCode negative code) := by
  obtain ⟨hds, hne, hvalue⟩ := Numeral.ofNat_spec x.digits
  have hlength := Numeral.length_ofNat_le (k := 17) hdigits
  rw [Decimal.value, ← hvalue] at hrounds
  rw [← hvalue] at hdigits
  obtain ⟨ds, hdef⟩ : ∃ ds, ds = Numeral.ofNat x.digits := ⟨_, rfl⟩
  simp only [layOut]
  rw [← hdef] at hds hne hlength hrounds hdigits ⊢
  split_ifs
  · -- With an exponent, which has few enough digits to be read.
    obtain ⟨d, ds, rfl⟩ := List.exists_cons_of_ne_nil hne
    rw [List.length_cons] at hlength ⊢
    obtain ⟨hlo, hhi⟩ := exponent_bounds hcode hfin hdigits hrounds
    rw [decimal?_scientific negative hds (by omega)]
    refine ofDecimal?_of_rounds negative hcode hfin ?_ ?_
    · convert hrounds using 3
      push_cast
      ring
    · exact cast_lt_range hdigits
  · refine decimal?_positional negative hds hne hcode hfin hdigits ?_
    convert hrounds using 3
    ring

theorem ofNumeral?_text_of_not_isNaN {v : Number} (h : v.isNaN = false) :
    ofNumeral? v.text = some v := by
  have hself := ofCode_self v
  have hle : v.magnitude ≤ BinaryFormat.double.infinity := by
    simpa [isNaN] using h
  rw [text, if_neg (by rw [h]; exact Bool.false_ne_true)]
  by_cases hinf : v.isInfinite
  · rw [if_pos hinf]
    rw [isInfinite, decide_eq_true_eq] at hinf
    rw [hinf] at hself
    rw [← hself]
    cases v.isNegative <;> decide
  rw [if_neg hinf]
  rw [isInfinite, decide_eq_true_eq] at hinf
  by_cases hzero : v.isZero
  · rw [if_pos hzero]
    rw [isZero, decide_eq_true_eq] at hzero
    rw [hzero] at hself
    rw [← hself]
    cases v.isNegative <;> decide
  -- What remains is the shortest decimal of a finite number.
  rw [if_neg hzero]
  rw [isZero, decide_eq_true_eq] at hzero
  have hfin : v.magnitude < BinaryFormat.double.infinity := by omega
  obtain ⟨hrounds, hdigits⟩ := shortest_spec (Nat.pos_of_ne_zero hzero) hfin
  obtain ⟨b, rest, heq, hb, hrest⟩ := layOut_head listingLayout v.shortest
  have hread := decimal?_layOut v.isNegative listingLayout (Nat.pos_of_ne_zero hzero) hfin
    hrounds hdigits
  rw [heq] at hread ⊢
  rw [ofNumeral?_signed v.isNegative hb hrest, hread, hself]

/-- The number that the text of a number is read as.  All that are not numbers have the same
text. -/
def reread (v : Number) : Number :=
  if v.isNaN then nan else v

/-- Reading the text of a number gives the number back, unless it is not a number. -/
theorem ofNumeral?_text (v : Number) : ofNumeral? v.text = some v.reread := by
  cases h : v.isNaN with
  | false => rw [ofNumeral?_text_of_not_isNaN h, reread, h, if_neg Bool.false_ne_true]
  | true =>
    rw [text, reread, h, if_pos rfl, if_pos rfl]
    decide

/-! ## What numerals denote -/

theorem isNaN_of_ofRatio? {negative : Bool} {num den : Nat} {v : Number}
    (h : ofRatio? negative num den = some v) : v.isNaN = false := by
  simp only [ofRatio?] at h
  split_ifs at h with hlt
  rw [← Option.some.inj h]
  exact isNaN_ofCode _ hlt.le

theorem isNaN_of_ofDecimal? {negative : Bool} {value : Nat} {e : Int} {v : Number}
    (h : ofDecimal? negative value e = some v) : v.isNaN = false := by
  simp only [ofDecimal?] at h
  split_ifs at h
  · rw [← Option.some.inj h]
    exact isNaN_ofCode _ (Nat.zero_le _)
  · rw [← Option.some.inj h]
    exact isNaN_ofCode _ (Nat.zero_le _)
  · exact isNaN_of_ofRatio? h

theorem isNaN_of_ofBinary? {negative : Bool} {value : Nat} {e : Int} {v : Number}
    (h : ofBinary? negative value e = some v) : v.isNaN = false := by
  simp only [ofBinary?] at h
  split_ifs at h
  · rw [← Option.some.inj h]
    exact isNaN_ofCode _ (Nat.zero_le _)
  · rw [← Option.some.inj h]
    exact isNaN_ofCode _ (Nat.zero_le _)
  · exact isNaN_of_ofRatio? h

theorem isNaN_of_decimal? {negative : Bool} {bs : Bytes} {v : Number}
    (h : decimal? negative bs = some v) : v.isNaN = false := by
  rw [decimal?] at h
  split at h
  · exact isNaN_of_ofDecimal? h
  · split at h
    · exact isNaN_of_ofDecimal? h
    · cases h
  · cases h

theorem isNaN_of_hexadecimal? {negative : Bool} {bs : Bytes} {v : Number}
    (h : hexadecimal? negative bs = some v) : v.isNaN = false := by
  rw [hexadecimal?] at h
  split at h
  · split at h
    · exact isNaN_of_ofBinary? h
    · cases h
  · cases h

theorem isNaN_of_unsigned? {negative : Bool} {bs : Bytes} {v : Number}
    (h : unsigned? negative bs = some v) : v.isNaN = false := by
  rw [unsigned?.eq_def] at h
  split at h
  · exact isNaN_of_hexadecimal? h
  · exact isNaN_of_hexadecimal? h
  · dsimp only at h
    split_ifs at h
    · rw [← Option.some.inj h]
      exact isNaN_ofCode _ le_rfl
    · exact isNaN_of_decimal? h

/-- Of all that are not numbers, a numeral denotes only one. -/
theorem eq_nan_of_ofNumeral? {bs : Bytes} {v : Number} (h : ofNumeral? bs = some v)
    (hnan : v.isNaN) : v = nan := by
  have hunsigned : ∀ {negative bs}, unsigned? negative bs ≠ some v := by
    intro negative bs h
    rw [isNaN_of_unsigned? h] at hnan
    cases hnan
  rw [ofNumeral?.eq_def] at h
  split at h
  · exact (Option.some.inj h).symm
  · split at h
    · exact absurd h hunsigned
    · exact absurd h hunsigned
    · exact absurd h hunsigned

end LuaAssembly.Number
