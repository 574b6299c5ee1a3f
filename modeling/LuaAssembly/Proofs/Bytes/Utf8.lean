import Mathlib
import LuaAssembly.Bytes.Utf8

/-!
# Valid UTF-8 in pieces

A sequence of several bytes has no ASCII byte in it.  So a text can be cut in front of every ASCII
byte, and it is valid if its parts are; and to write ASCII bytes differently, but in ASCII, makes no
valid text invalid and no invalid text valid.
-/
namespace LuaAssembly.Utf8

/-- An ASCII byte. -/
def IsAscii (b : UInt8) : Prop := b < 0x80

instance (b : UInt8) : Decidable (IsAscii b) := inferInstanceAs (Decidable (b < 0x80))

theorem first?_of_isAscii {b : UInt8} (hb : IsAscii b) (rest : Bytes) :
    first? (b :: rest) = some (b.toNat, 1) := by
  rw [first?.eq_def]
  exact if_pos hb

theorem isValid_nil : isValid [] = true := rfl

theorem isValid_cons_of_isAscii {b : UInt8} (hb : IsAscii b) (rest : Bytes) :
    isValid (b :: rest) = isValid rest := by
  rw [isValid, pieces, piecesFrom, first?_of_isAscii hb]
  simp [isValid, pieces, Piece.isScalar]

theorem isValid_append_of_isAscii {bs : Bytes} (hbs : ∀ b ∈ bs, IsAscii b) (rest : Bytes) :
    isValid (bs ++ rest) = isValid rest := by
  induction bs with
  | nil => rfl
  | cons b bs ih =>
    rw [List.forall_mem_cons] at hbs
    rw [List.cons_append, isValid_cons_of_isAscii hbs.1, ih hbs.2]

theorem piecesFrom_append (front rest : Bytes) :
    piecesFrom front.length (front ++ rest) = piecesFrom 0 rest := by
  induction front with
  | nil => rfl
  | cons b front ih => rw [List.length_cons, List.cons_append, piecesFrom, ih]

theorem le_of_lead?_eq_some {a lo hi : UInt8} {n : Nat} (h : lead? a = some (n, lo, hi)) :
    0x80 ≤ lo := by
  rw [lead?] at h
  split_ifs at h <;> cases h <;> decide

theorem not_isAscii_of_isTail {b : UInt8} (h : isTail b = true) : ¬IsAscii b := by
  rw [isTail, Bool.and_eq_true, decide_eq_true_eq] at h
  exact UInt8.not_lt.2 h.1

/-- A sequence of several bytes is not affected by what follows it, and it has no ASCII bytes. -/
theorem exists_of_first?_eq_some {a : UInt8} (ha : ¬IsAscii a) {rest : Bytes} {value width : Nat}
    (h : first? (a :: rest) = some (value, width)) : ∃ tails rest', rest = tails ++ rest' ∧
      width = tails.length + 1 ∧ (∀ b ∈ tails, ¬IsAscii b) ∧
      ∀ more, first? (a :: (tails ++ more)) = some (value, width) := by
  have hsecond : ∀ {n : Nat} {b lo hi : UInt8}, lead? a = some (n, lo, hi) → lo ≤ b → ¬IsAscii b :=
    fun hlead hb => UInt8.not_lt.2 (UInt8.le_trans (le_of_lead?_eq_some hlead) hb)
  rw [first?.eq_def] at h
  simp only [if_neg (show ¬a < 0x80 from ha)] at h
  split at h
  · next lo hi b rest' hlead =>
    split_ifs at h with hb
    cases h
    refine ⟨[b], rest', rfl, rfl, by simpa using hsecond hlead hb.1, fun more => ?_⟩
    rw [first?.eq_def]
    simp only [if_neg (show ¬a < 0x80 from ha), hlead, List.cons_append, if_pos hb]
  · next lo hi b c rest' hlead =>
    split_ifs at h with hbc
    cases h
    refine ⟨[b, c], rest', rfl, rfl, ?_, fun more => ?_⟩
    · simpa using ⟨hsecond hlead hbc.1, not_isAscii_of_isTail hbc.2.2⟩
    · rw [first?.eq_def]
      simp only [if_neg (show ¬a < 0x80 from ha), hlead, List.cons_append, if_pos hbc]
  · next lo hi b c d rest' hlead =>
    split_ifs at h with hbcd
    cases h
    refine ⟨[b, c, d], rest', rfl, rfl, ?_, fun more => ?_⟩
    · simpa using ⟨hsecond hlead hbcd.1, not_isAscii_of_isTail hbcd.2.2.1,
        not_isAscii_of_isTail hbcd.2.2.2⟩
    · rw [first?.eq_def]
      simp only [if_neg (show ¬a < 0x80 from ha), hlead, List.cons_append, if_pos hbcd]
  · cases h

/-! ## Other spellings of ASCII bytes -/

/-- ASCII bytes are written in ASCII, and other bytes as they are. -/
structure RespellsAscii (f : UInt8 → Bytes) : Prop where
  ne_nil : ∀ b, IsAscii b → f b ≠ []
  isAscii : ∀ b, IsAscii b → ∀ c ∈ f b, IsAscii c
  other : ∀ b, ¬IsAscii b → f b = [b]

/-- Nothing follows, or an ASCII byte. -/
def StartsAscii (bs : Bytes) : Prop :=
  ∀ b ∈ bs.head?, IsAscii b

variable {f : UInt8 → Bytes}

/-- Bytes that are not ASCII are the same before and after. -/
theorem RespellsAscii.exists_eq_append (hf : RespellsAscii f) {s t tails rest : Bytes}
    (ht : StartsAscii t) (h : s.flatMap f ++ t = tails ++ rest)
    (htails : ∀ b ∈ tails, ¬IsAscii b) : ∃ s', s = tails ++ s' := by
  induction tails generalizing s with
  | nil => exact ⟨s, rfl⟩
  | cons b tails ih =>
    rw [List.forall_mem_cons] at htails
    cases s with
    | nil =>
      rw [List.flatMap_nil, List.nil_append, List.cons_append] at h
      exact absurd (ht b (by simp [h])) htails.1
    | cons c s =>
      rw [List.flatMap_cons, List.append_assoc] at h
      by_cases hc : IsAscii c
      · obtain ⟨d, ds, hd⟩ := List.exists_cons_of_ne_nil (hf.ne_nil c hc)
        rw [hd, List.cons_append, List.cons_append, List.cons.injEq] at h
        have hdascii := hf.isAscii c hc d (by simp [hd])
        rw [h.1] at hdascii
        exact absurd hdascii htails.1
      · rw [hf.other c hc, List.singleton_append, List.cons_append, List.cons.injEq] at h
        obtain ⟨s', rfl⟩ := ih h.2 htails.2
        exact ⟨s', by rw [h.1, List.cons_append]⟩

theorem RespellsAscii.flatMap_append (hf : RespellsAscii f) {tails s : Bytes}
    (htails : ∀ b ∈ tails, ¬IsAscii b) : (tails ++ s).flatMap f = tails ++ s.flatMap f := by
  induction tails with
  | nil => rfl
  | cons b tails ih =>
    rw [List.forall_mem_cons] at htails
    rw [List.cons_append, List.flatMap_cons, hf.other b htails.1, ih htails.2]
    rfl

/-- A text with ASCII bytes written differently is as valid as before, and what follows it is
valid on its own. -/
theorem RespellsAscii.isValid_flatMap_append (hf : RespellsAscii f) (s : Bytes) {t : Bytes}
    (ht : StartsAscii t) : isValid (s.flatMap f ++ t) = (isValid s && isValid t) := by
  induction hn : s.length using Nat.strong_induction_on generalizing s with
  | _ n ih =>
    subst hn
    cases s with
    | nil => simp [isValid_nil]
    | cons b s =>
      rw [List.flatMap_cons, List.append_assoc]
      by_cases hb : IsAscii b
      · rw [isValid_append_of_isAscii (hf.isAscii b hb), isValid_cons_of_isAscii hb,
          ih s.length (by simp) s rfl]
      · rw [hf.other b hb, List.singleton_append]
        cases hfirst : first? (b :: s) with
        | none =>
          -- no sequence begins here in either text
          have hnone : first? (b :: (s.flatMap f ++ t)) = none := by
            by_contra hne
            obtain ⟨⟨value, width⟩, hsome⟩ := Option.ne_none_iff_exists'.1 hne
            obtain ⟨tails, rest, heq, -, htails, hmore⟩ := exists_of_first?_eq_some hb hsome
            obtain ⟨s', rfl⟩ := hf.exists_eq_append ht heq htails
            rw [hmore s'] at hfirst
            cases hfirst
          simp [isValid, pieces, piecesFrom, hfirst, hnone, Piece.isScalar]
        | some found =>
          obtain ⟨value, width⟩ := found
          obtain ⟨tails, s', rfl, rfl, htails, hmore⟩ := exists_of_first?_eq_some hb hfirst
          rw [hf.flatMap_append htails, List.append_assoc]
          have hvalid : ∀ more, isValid (b :: (tails ++ more)) = isValid more := by
            intro more
            rw [isValid, pieces, piecesFrom, hmore more]
            simp [isValid, pieces, Piece.isScalar, piecesFrom_append]
          rw [hvalid, hvalid, ih s'.length (by simp) s' rfl]

end LuaAssembly.Utf8
