import Mathlib
import LuaAssembly.Bytes.Numeral

/-!
# Written integers are read back

Decimal numerals are related to the integers they stand for through the value of a run of digits.
The main statement is that reading an integer undoes writing it, so different integers are written
differently.
-/
namespace LuaAssembly.Numeral

/-- Every byte is a decimal digit. -/
def Digits (bs : Bytes) : Prop :=
  ∀ b ∈ bs, Bytes.isDigit b

/-- The value of decimal digits that follow a number. -/
def valueOnto (acc : Nat) (bs : Bytes) : Nat :=
  bs.foldl (fun acc b => acc * 10 + (b.toNat - 0x30)) acc

@[simp] theorem valueOnto_nil (acc : Nat) : valueOnto acc [] = acc := rfl

@[simp] theorem valueOnto_cons (acc : Nat) (b : UInt8) (bs : Bytes) :
    valueOnto acc (b :: bs) = valueOnto (acc * 10 + (b.toNat - 0x30)) bs := by
  simp only [valueOnto, List.foldl_cons]

theorem valueOnto_append (acc : Nat) (xs ys : Bytes) :
    valueOnto acc (xs ++ ys) = valueOnto (valueOnto acc xs) ys :=
  List.foldl_append

theorem valueOnto_replicate_zero (acc n : Nat) :
    valueOnto acc (List.replicate n 0x30) = acc * 10 ^ n := by
  induction n generalizing acc with
  | zero => simp
  | succ n ih =>
    rw [List.replicate_succ, valueOnto_cons, ih, pow_succ']
    simp [mul_assoc]

theorem le_valueOnto (acc : Nat) (bs : Bytes) : acc ≤ valueOnto acc bs := by
  induction bs generalizing acc with
  | nil => rfl
  | cons b bs ih =>
    rw [valueOnto_cons]
    exact le_trans (by omega) (ih _)

theorem Digits.head {b : UInt8} {bs : Bytes} (h : Digits (b :: bs)) : Bytes.isDigit b :=
  h b List.mem_cons_self

theorem Digits.tail {b : UInt8} {bs : Bytes} (h : Digits (b :: bs)) : Digits bs :=
  fun c hc => h c (List.mem_cons_of_mem b hc)

theorem Digits.append {xs ys : Bytes} (hx : Digits xs) (hy : Digits ys) : Digits (xs ++ ys) := by
  intro b hb
  rcases List.mem_append.1 hb with hb | hb
  · exact hx b hb
  · exact hy b hb

theorem digits_replicate_zero (n : Nat) : Digits (List.replicate n 0x30) := by
  intro b hb
  rw [List.eq_of_mem_replicate hb]
  decide

theorem isDigit_iff {b : UInt8} : Bytes.isDigit b ↔ 0x30 ≤ b.toNat ∧ b.toNat ≤ 0x39 := by
  simp [Bytes.isDigit, UInt8.le_iff_toNat_le]

theorem digit_toNat {v : Nat} (hv : v < 10) : (digit v).toNat = 0x30 + v := by
  rw [digit, if_pos hv, UInt8.toNat_ofNat']
  omega

/-! ## Natural numbers -/

/-- The digits of a number, written in front of others. -/
theorem digitsOnto_spec {bound n : Nat} (hn : n < bound) (acc : Bytes) :
    ∃ ds, digitsOnto 10 bound n acc = ds ++ acc ∧ Digits ds ∧ ds ≠ [] ∧ valueOnto 0 ds = n := by
  have hdigit : ∀ {v : Nat}, v < 10 → Digits [digit v] := by
    intro v hv b hb
    rw [List.mem_singleton.1 hb, isDigit_iff, digit_toNat hv]
    omega
  induction bound generalizing n acc with
  | zero => omega
  | succ bound ih =>
    rw [digitsOnto]
    split_ifs with hlt
    · refine ⟨[digit n], rfl, hdigit hlt, by simp, ?_⟩
      simp [digit_toNat hlt]
    · obtain ⟨ds, hds, hdigits, hne, hvalue⟩ := ih (n := n / 10) (by omega) (digit (n % 10) :: acc)
      have hmod : n % 10 < 10 := Nat.mod_lt n (by decide)
      refine ⟨ds ++ [digit (n % 10)], by simp [hds], hdigits.append (hdigit hmod), by simp, ?_⟩
      rw [valueOnto_append, hvalue, valueOnto_cons, valueOnto_nil, digit_toNat hmod]
      omega

theorem ofNat_spec (n : Nat) : Digits (ofNat n) ∧ ofNat n ≠ [] ∧ valueOnto 0 (ofNat n) = n := by
  obtain ⟨ds, hds, h⟩ := digitsOnto_spec (Nat.lt_succ_self n) []
  rw [List.append_nil] at hds
  rwa [ofNat, hds]

theorem exists_digit_of_mem_fixed {base width n : Nat} (hbase : 0 < base) {b : UInt8}
    (hb : b ∈ fixed base width n) : ∃ v < base, b = digit v := by
  induction width generalizing n with
  | zero => cases hb
  | succ width ih =>
    rcases List.mem_append.1 hb with hb | hb
    · exact ih hb
    · exact ⟨n % base, Nat.mod_lt n hbase, List.mem_singleton.1 hb⟩

theorem length_digitsOnto_le {bound n k : Nat} (hn : n < 10 ^ (k + 1)) (acc : Bytes) :
    (digitsOnto 10 bound n acc).length ≤ k + 1 + acc.length := by
  induction bound generalizing n k acc with
  | zero => rw [digitsOnto]; omega
  | succ bound ih =>
    rw [digitsOnto]
    split_ifs with hlt
    · rw [List.length_cons]
      omega
    · cases k with
      | zero => omega
      | succ k =>
        have h := ih (n := n / 10) (k := k) (by omega) (digit (n % 10) :: acc)
        rw [List.length_cons] at h
        omega

theorem length_ofNat_le {n k : Nat} (hn : n < 10 ^ (k + 1)) : (ofNat n).length ≤ k + 1 :=
  length_digitsOnto_le hn []

theorem digitsValue?_eq {bs : Bytes} (h : Digits bs) (acc : Nat) :
    digitsValue? acc bs = some (valueOnto acc bs) := by
  induction bs generalizing acc with
  | nil => rfl
  | cons b bs ih => rw [digitsValue?, if_pos h.head, ih h.tail, valueOnto_cons]

theorem natural?_ofNat (n : Nat) : natural? (ofNat n) = some n := by
  obtain ⟨hdigits, hne, hvalue⟩ := ofNat_spec n
  obtain ⟨b, bs, hbs⟩ := List.exists_cons_of_ne_nil hne
  rw [hbs] at hdigits hvalue ⊢
  rw [natural?, digitsValue?_eq hdigits, hvalue]
  rintro ⟨⟩

theorem ofNat_injective : Function.Injective ofNat := by
  intro m n h
  have hm := natural?_ofNat m
  rw [h, natural?_ofNat] at hm
  exact (Option.some.inj hm).symm

/-- A run of digits is no sign. -/
theorem ofNat_head (n : Nat) : ∃ b bs, ofNat n = b :: bs ∧ Bytes.isDigit b := by
  obtain ⟨hdigits, hne, -⟩ := ofNat_spec n
  obtain ⟨b, bs, hbs⟩ := List.exists_cons_of_ne_nil hne
  exact ⟨b, bs, hbs, (hbs ▸ hdigits).head⟩

/-! ## Integers -/

theorem integer?_ofInt (v : Int) : integer? (ofInt v) = some v := by
  cases v with
  | ofNat n =>
    obtain ⟨b, bs, hbs, hdigit⟩ := ofNat_head n
    have hread := natural?_ofNat n
    rw [ofInt, hbs] at *
    rw [integer?]
    · rw [hread]
      rfl
    · rintro _ ⟨⟩
      cases hdigit
    · rintro _ ⟨⟩
      cases hdigit
  | negSucc n =>
    rw [ofInt, integer?, natural?_ofNat]
    rfl

theorem signed?_ofInt {bits : Nat} {v : Int} (hlo : -(2 ^ (bits - 1) : Int) ≤ v)
    (hhi : v < 2 ^ (bits - 1)) : signed? bits (ofInt v) = some v := by
  rw [signed?, integer?_ofInt]
  exact if_pos ⟨hlo, hhi⟩

theorem signed?_bounds {bits : Nat} {bs : Bytes} {v : Int} (h : signed? bits bs = some v) :
    -(2 ^ (bits - 1) : Int) ≤ v ∧ v < 2 ^ (bits - 1) := by
  rw [signed?] at h
  split at h
  · split_ifs at h with hv
    cases h
    exact hv
  · cases h

/-! ## Decimal integers

What the readers accept, said without them: digits, at least one, behind an optional sign. -/

/-- A decimal integer and its value. -/
inductive IsDecimal : Bytes → Int → Prop where
  | bare {ds : Bytes} (hds : Digits ds) (hne : ds ≠ []) : IsDecimal ds (valueOnto 0 ds)
  | plus {ds : Bytes} (hds : Digits ds) (hne : ds ≠ []) :
    IsDecimal (0x2B :: ds) (valueOnto 0 ds)
  | minus {ds : Bytes} (hds : Digits ds) (hne : ds ≠ []) :
    IsDecimal (0x2D :: ds) (-(valueOnto 0 ds : Int))

theorem digits_of_digitsValue? {bs : Bytes} {acc n : Nat} (h : digitsValue? acc bs = some n) :
    Digits bs := by
  induction bs generalizing acc with
  | nil => exact fun b hb => by cases hb
  | cons b bs ih =>
    rw [digitsValue?] at h
    split_ifs at h with hb
    intro c hc
    rcases List.mem_cons.1 hc with rfl | hc
    · exact hb
    · exact ih h c hc

theorem natural?_eq_some_iff {bs : Bytes} {n : Nat} :
    natural? bs = some n ↔ Digits bs ∧ bs ≠ [] ∧ valueOnto 0 bs = n := by
  cases bs with
  | nil => simp [natural?]
  | cons b bs =>
    have hread : natural? (b :: bs) = digitsValue? 0 (b :: bs) := natural?.eq_2 _ (by simp)
    rw [hread]
    constructor
    · intro h
      have hds := digits_of_digitsValue? h
      rw [digitsValue?_eq hds] at h
      exact ⟨hds, by simp, Option.some.inj h⟩
    · rintro ⟨hds, -, rfl⟩
      exact digitsValue?_eq hds 0

theorem integer?_eq_some_iff {bs : Bytes} {v : Int} : integer? bs = some v ↔ IsDecimal bs v := by
  constructor
  · intro h
    -- The sign decides which digits are read.
    rw [integer?.eq_def] at h
    split at h
    · obtain ⟨n, hn, rfl⟩ := Option.map_eq_some_iff.1 h
      obtain ⟨hds, hne, rfl⟩ := natural?_eq_some_iff.1 hn
      exact .plus hds hne
    · obtain ⟨z, hz, rfl⟩ := Option.map_eq_some_iff.1 h
      obtain ⟨n, hn, hz⟩ := Option.bind_eq_some_iff.1 hz
      obtain ⟨hds, hne, rfl⟩ := natural?_eq_some_iff.1 hn
      cases hz
      exact .minus hds hne
    · obtain ⟨n, hn, rfl⟩ := Option.map_eq_some_iff.1 h
      obtain ⟨hds, hne, rfl⟩ := natural?_eq_some_iff.1 hn
      exact .bare hds hne
  · rintro (⟨hds, hne⟩ | ⟨hds, hne⟩ | ⟨hds, hne⟩)
    · rw [integer?]
      · rw [natural?_eq_some_iff.2 ⟨hds, hne, rfl⟩]
        rfl
      · rintro _ rfl
        exact absurd hds.head (by decide)
      · rintro _ rfl
        exact absurd hds.head (by decide)
    · rw [integer?, natural?_eq_some_iff.2 ⟨hds, hne, rfl⟩]
      rfl
    · rw [integer?, natural?_eq_some_iff.2 ⟨hds, hne, rfl⟩]
      rfl

theorem isDecimal_ofInt (v : Int) : IsDecimal (ofInt v) v :=
  integer?_eq_some_iff.1 (integer?_ofInt v)

theorem signed?_eq_some_iff {bits : Nat} {bs : Bytes} {v : Int} :
    signed? bits bs = some v ↔
      IsDecimal bs v ∧ -(2 ^ (bits - 1) : Int) ≤ v ∧ v < 2 ^ (bits - 1) := by
  rw [← integer?_eq_some_iff]
  constructor
  · intro h
    refine ⟨?_, signed?_bounds h⟩
    rw [signed?] at h
    split at h
    · split_ifs at h
      rwa [← h]
    · cases h
  · rintro ⟨hv, hbounds⟩
    rw [signed?, hv]
    exact if_pos hbounds

end LuaAssembly.Numeral
