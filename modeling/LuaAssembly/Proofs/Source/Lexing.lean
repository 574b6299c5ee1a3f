import Mathlib
import LuaAssembly.Proofs.Source.Literal
import LuaAssembly.Source.Token

/-!
# Spelling tokens

`Spells text shapes` says that a piece of source, read between two tokens, is a sequence of tokens
of the given classes and texts, whatever comes before and after it.  Where the tokens stand does
not matter.  Pieces can be put one after the other, so the tokens of a whole text are known from
the tokens of its lines.
-/
namespace LuaAssembly

/-- The class and the text of a token, without its position. -/
def Token.shape (t : Token) : TokenKind × Bytes :=
  (t.kind, t.literal)

/-- The text is a sequence of whole tokens with the given classes and texts. -/
def Spells (text : Bytes) (shapes : List (TokenKind × Bytes)) : Prop :=
  ∀ p done rest, ∃ p' ts, lexFrom p .gap done (text ++ rest) = lexFrom p' .gap (ts ++ done) rest ∧
    ts.reverse.map Token.shape = shapes

namespace Spells

theorem nil : Spells [] [] :=
  fun p _ _ => ⟨p, [], rfl, rfl⟩

theorem append {text₁ text₂ : Bytes} {shapes₁ shapes₂ : List (TokenKind × Bytes)}
    (h₁ : Spells text₁ shapes₁) (h₂ : Spells text₂ shapes₂) :
    Spells (text₁ ++ text₂) (shapes₁ ++ shapes₂) := by
  intro p done rest
  obtain ⟨p₁, ts₁, heq₁, hs₁⟩ := h₁ p done (text₂ ++ rest)
  obtain ⟨p₂, ts₂, heq₂, hs₂⟩ := h₂ p₁ (ts₁ ++ done) rest
  refine ⟨p₂, ts₂ ++ ts₁, ?_, ?_⟩
  · rw [List.append_assoc, heq₁, heq₂, List.append_assoc]
  · rw [List.reverse_append, List.map_append, hs₁, hs₂]

theorem blank {b : UInt8} (hb : isBlank b) : Spells [b] [] := by
  intro p done rest
  refine ⟨p.advance b, [], ?_, rfl⟩
  rw [List.singleton_append, lexFrom, LexMode.step, LexMode.openWith, if_pos hb]
  rfl

theorem blanks {bs : Bytes} (h : ∀ b ∈ bs, isBlank b) : Spells bs [] := by
  induction bs with
  | nil => exact nil
  | cons b bs ih =>
    rw [List.forall_mem_cons] at h
    exact (blank h.1).append (ih h.2)

/-- A comment up to the end of its line. -/
theorem comment {body : Bytes} (h : 0x0A ∉ body) : Spells (0x3B :: (body ++ [0x0A])) [] := by
  have hbody : ∀ p done rest, ∃ p',
      lexFrom p .comment done (body ++ 0x0A :: rest) = lexFrom p' .gap done rest := by
    induction body with
    | nil => exact fun p done rest => ⟨p.advance 0x0A, rfl⟩
    | cons b body ih =>
      rw [List.mem_cons, not_or] at h
      intro p done rest
      obtain ⟨p', heq⟩ := ih h.2 (p.advance b) done rest
      refine ⟨p', ?_⟩
      rw [List.cons_append, lexFrom, LexMode.step, if_neg (Ne.symm h.1)]
      exact heq
  intro p done rest
  obtain ⟨p', heq⟩ := hbody (p.advance 0x3B) done rest
  refine ⟨p', [], ?_, rfl⟩
  rw [List.cons_append, List.append_assoc, List.singleton_append]
  exact heq

end Spells

/-! ## Words -/

/-- No byte ends a word. -/
def WordBytes (bs : Bytes) : Prop :=
  ∀ b ∈ bs, isBlank b = false ∧ b ≠ 0x3B

instance (bs : Bytes) : Decidable (WordBytes bs) :=
  inferInstanceAs (Decidable (∀ b ∈ bs, _))

/-- The bytes make up a word: no blank, no semicolon, and no quote in front. -/
structure IsWord (w : Bytes) : Prop where
  nonempty : w ≠ []
  first : w.head? ≠ some 0x22
  bytes : WordBytes w

instance : (w : Bytes) → Decidable (IsWord w)
  | [] => isFalse fun h => h.nonempty rfl
  | b :: w =>
    decidable_of_iff (b ≠ 0x22 ∧ WordBytes (b :: w))
      ⟨fun h => ⟨List.cons_ne_nil b w, fun hb => h.1 (Option.some.inj hb), h.2⟩,
        fun h => ⟨fun hb => h.first (congrArg some hb), h.bytes⟩⟩

theorem IsWord.append {w bs : Bytes} (hw : IsWord w) (hbs : WordBytes bs) : IsWord (w ++ bs) := by
  obtain ⟨b, w, rfl⟩ := List.exists_cons_of_ne_nil hw.nonempty
  exact ⟨by simp, hw.first, List.forall_mem_append.2 ⟨hw.bytes, hbs⟩⟩

/-- A text of printable characters without blanks, semicolons and quotes. -/
def isPlainWord (s : String) : Bool :=
  !s.toList.isEmpty && s.toList.all fun c =>
    Nat.ble 0x21 c.toNat && Nat.ble c.toNat 0x7E && c.toNat != 0x3B && c.toNat != 0x22

theorem utf8EncodeChar_of_le {c : Char} (h : c.toNat ≤ 0x7F) :
    String.utf8EncodeChar c = [UInt8.ofNat c.toNat] := by
  simp [String.utf8EncodeChar, h]

theorem isWord_utf8 {s : String} (h : isPlainWord s) : IsWord (utf8 s) := by
  rw [isPlainWord, Bool.and_eq_true, List.all_eq_true] at h
  obtain ⟨hne, hall⟩ := h
  have hchar : ∀ c ∈ s.toList, String.utf8EncodeChar c = [UInt8.ofNat c.toNat] ∧
      isBlank (UInt8.ofNat c.toNat) = false ∧ UInt8.ofNat c.toNat ≠ 0x3B ∧
      UInt8.ofNat c.toNat ≠ 0x22 := by
    intro c hc
    have hc := hall c hc
    simp only [Bool.and_eq_true, Nat.ble_eq, bne_iff_ne] at hc
    obtain ⟨⟨⟨hlo, hhi⟩, hsemi⟩, hquote⟩ := hc
    refine ⟨utf8EncodeChar_of_le (by omega), ?_, ?_, ?_⟩
    · simp [isBlank, UInt8.le_iff_toNat_le, ← UInt8.toNat_inj]
      omega
    · simp [← UInt8.toNat_inj]
      omega
    · simp [← UInt8.toNat_inj]
      omega
  obtain ⟨c, cs, hcs⟩ : ∃ c cs, s.toList = c :: cs :=
    List.exists_cons_of_ne_nil (by simpa using hne)
  rw [utf8]
  refine ⟨?_, ?_, ?_⟩
  · rw [hcs, List.flatMap_cons, (hchar c (by simp [hcs])).1]
    simp
  · rw [hcs, List.flatMap_cons, (hchar c (by simp [hcs])).1]
    simpa using (hchar c (by simp [hcs])).2.2.2
  · intro b hb
    obtain ⟨d, hd, hb⟩ := List.mem_flatMap.1 hb
    rw [(hchar d hd).1, List.mem_singleton] at hb
    rw [hb]
    exact ⟨(hchar d hd).2.1, (hchar d hd).2.2.1⟩

theorem wordBytes_of_digits {ds : Bytes} (h : Numeral.Digits ds) : WordBytes ds := by
  intro b hb
  obtain ⟨hlo, hhi⟩ := Numeral.isDigit_iff.1 (h b hb)
  constructor
  · simp [isBlank, UInt8.le_iff_toNat_le, ← UInt8.toNat_inj]
    omega
  · rintro rfl
    exact absurd (h _ hb) (by decide)

theorem isWord_ofNat (n : Nat) : IsWord (Numeral.ofNat n) := by
  obtain ⟨b, bs, heq, hb⟩ := Numeral.ofNat_head n
  refine ⟨(Numeral.ofNat_spec n).2.1, ?_, wordBytes_of_digits (Numeral.ofNat_spec n).1⟩
  rw [heq]
  rintro ⟨⟩
  exact absurd hb (by decide)

theorem isWord_ofInt (v : Int) : IsWord (Numeral.ofInt v) := by
  cases v with
  | ofNat n => exact isWord_ofNat n
  | negSucc n =>
    have hminus : IsWord [0x2D] := by decide +kernel
    exact hminus.append (isWord_ofNat (n + 1)).bytes

/-- A word and the blank behind it. -/
theorem Spells.word {w : Bytes} {b : UInt8} (hw : IsWord w) (hb : isBlank b) :
    Spells (w ++ [b]) [(.word, w)] := by
  obtain ⟨hne, hfirst, hbytes⟩ := hw
  obtain ⟨c, cs, rfl⟩ := List.exists_cons_of_ne_nil hne
  have hc : c ≠ 0x22 := fun h => hfirst (congrArg some h)
  rw [WordBytes, List.forall_mem_cons] at hbytes
  obtain ⟨⟨hcblank, hcsemi⟩, hcs⟩ := hbytes
  -- the rest of the word, once its first bytes have been read
  clear hne hfirst
  have hrest : ∀ start read p done rest, ∃ p',
      lexFrom p (.word start read) done (cs ++ b :: rest) =
        lexFrom p' .gap (⟨.word, read.reverse ++ cs, start⟩ :: done) rest := by
    induction cs with
    | nil =>
      intro start read p done rest
      refine ⟨p.advance b, ?_⟩
      rw [List.nil_append, lexFrom, LexMode.step, if_pos (by rw [hb]; rfl), LexMode.openWith,
        if_pos hb, List.append_nil]
      rfl
    | cons d cs ih =>
      intro start read p done rest
      rw [List.forall_mem_cons] at hcs
      obtain ⟨⟨hd, hsemi⟩, hcs⟩ := hcs
      obtain ⟨p', heq⟩ := ih hcs start (d :: read) (p.advance d) done rest
      refine ⟨p', ?_⟩
      rw [List.cons_append, lexFrom, LexMode.step, if_neg (by simp [hd, hsemi])]
      simpa using heq
  intro p done rest
  obtain ⟨p', heq⟩ := hrest p [c] (p.advance c) done rest
  refine ⟨p', [⟨.word, c :: cs, p⟩], ?_, rfl⟩
  rw [List.cons_append, List.cons_append, List.append_assoc, List.singleton_append, lexFrom,
    LexMode.step, LexMode.openWith, if_neg (by simp [hcblank]), if_neg hcsemi, if_neg hc]
  exact heq

/-! ## Literals -/

theorem lexFrom_literal_plain (p start : Position) (read rest : Bytes) (done : List Token)
    {b : UInt8} (h₁ : b ≠ 0x0A) (h₂ : b ≠ 0x22) (h₃ : b ≠ 0x5C) :
    lexFrom p (.literal start read false) done (b :: rest) =
      lexFrom (p.advance b) (.literal start (b :: read) false) done rest := by
  rw [lexFrom, LexMode.step, if_neg h₁, if_neg Bool.false_ne_true, if_neg h₂, decide_eq_false h₃]
  rfl

theorem lexFrom_literal_escape (p start : Position) (read rest : Bytes) (done : List Token)
    {e : UInt8} (he : e ≠ 0x0A) :
    lexFrom p (.literal start read false) done (0x5C :: e :: rest) =
      lexFrom ((p.advance 0x5C).advance e) (.literal start (e :: 0x5C :: read) false) done rest := by
  have hslash : LexMode.step p 0x5C (.literal start read false) =
      (none, .literal start (0x5C :: read) true) := rfl
  have hescaped : LexMode.step (p.advance 0x5C) e (.literal start (0x5C :: read) true) =
      (none, .literal start (e :: 0x5C :: read) false) := by
    rw [LexMode.step, if_neg he, if_pos rfl]
  rw [lexFrom, hslash]
  simp only
  rw [lexFrom, hescaped]
  rfl

/-- A byte in the form in which it is written inside a literal. -/
theorem lexFrom_quoteByte (b : UInt8) (p start : Position) (read rest : Bytes)
    (done : List Token) : ∃ p',
    lexFrom p (.literal start read false) done (Literal.quoteByte b ++ rest) =
      lexFrom p' (.literal start ((Literal.quoteByte b).reverse ++ read) false) done rest := by
  rcases Literal.quoteByte_cases b with ⟨hq, h₁, h₂, h₃⟩ | ⟨e, hq, -, he⟩ | hq
  · rw [hq]
    exact ⟨_, lexFrom_literal_plain p start read rest done h₃ h₁ h₂⟩
  · rw [hq]
    exact ⟨_, lexFrom_literal_escape p start read rest done he⟩
  · rw [hq, Literal.fixed_ten_three]
    have hdigit : ∀ {v : Nat}, v < 10 → Numeral.digit v ≠ 0x0A ∧ Numeral.digit v ≠ 0x22 ∧
        Numeral.digit v ≠ 0x5C := by decide
    obtain ⟨h₁, -, -⟩ := hdigit (Nat.mod_lt (b.toNat / 10 / 10) (by decide))
    obtain ⟨h₂, h₂', h₂''⟩ := hdigit (Nat.mod_lt (b.toNat / 10) (by decide))
    obtain ⟨h₃, h₃', h₃''⟩ := hdigit (Nat.mod_lt b.toNat (by decide))
    simp only [List.cons_append, List.nil_append]
    rw [lexFrom_literal_escape _ _ _ _ _ h₁, lexFrom_literal_plain _ _ _ _ _ h₂ h₂' h₂'',
      lexFrom_literal_plain _ _ _ _ _ h₃ h₃' h₃'']
    exact ⟨_, rfl⟩

/-- A quoted byte string is one token. -/
theorem Spells.quote (s : Bytes) : Spells (Literal.quote s) [(.string, Literal.quote s)] := by
  have hinside : ∀ start read p done rest, ∃ p',
      lexFrom p (.literal start read false) done (s.flatMap Literal.quoteByte ++ 0x22 :: rest) =
        lexFrom p' .gap
          (⟨.string, read.reverse ++ (s.flatMap Literal.quoteByte ++ [0x22]), start⟩ :: done)
          rest := by
    induction s with
    | nil =>
      intro start read p done rest
      refine ⟨p.advance 0x22, ?_⟩
      rw [List.flatMap_nil, List.nil_append, lexFrom]
      simp [LexMode.step, LexMode.finish]
    | cons b s ih =>
      intro start read p done rest
      rw [List.flatMap_cons, List.append_assoc, List.append_assoc]
      obtain ⟨p₁, heq₁⟩ := lexFrom_quoteByte b p start read
        (s.flatMap Literal.quoteByte ++ 0x22 :: rest) done
      obtain ⟨p₂, heq₂⟩ := ih start ((Literal.quoteByte b).reverse ++ read) p₁ done rest
      refine ⟨p₂, ?_⟩
      rw [heq₁, heq₂]
      simp
  intro p done rest
  obtain ⟨p', heq⟩ := hinside p [0x22] (p.advance 0x22) done rest
  refine ⟨p', [⟨.string, Literal.quote s, p⟩], ?_, rfl⟩
  rw [Literal.quote, List.cons_append, List.append_assoc, List.singleton_append]
  exact heq

/-! ## Lines -/

/-- What stands between the blanks of a line: words and quoted byte strings. -/
inductive IsArgument : TokenKind × Bytes → Prop where
  | word {w : Bytes} : IsWord w → IsArgument (.word, w)
  | quote (s : Bytes) : IsArgument (.string, Literal.quote s)

theorem Spells.argument {s : TokenKind × Bytes} (hs : IsArgument s) {b : UInt8} (hb : isBlank b) :
    Spells (s.2 ++ [b]) [s] := by
  cases hs with
  | word hw => exact Spells.word hw hb
  | quote s => exact (Spells.quote s).append (Spells.blank hb)

/-- Arguments with a blank between neighbours and a newline at the end. -/
theorem Spells.line {shapes : List (TokenKind × Bytes)} (h : ∀ s ∈ shapes, IsArgument s) :
    Spells (Bytes.join (utf8 " ") (shapes.map Prod.snd) ++ utf8 "\n") shapes := by
  rw [show utf8 "\n" = [0x0A] by decide, show utf8 " " = [0x20] by decide]
  induction shapes with
  | nil => exact Spells.blank (by decide)
  | cons s shapes ih =>
    rw [List.forall_mem_cons] at h
    cases shapes with
    | nil => exact Spells.argument h.1 (by decide)
    | cons s' shapes =>
      have hrest := (Spells.argument h.1 (b := 0x20) (by decide)).append (ih h.2)
      simpa [Bytes.join] using hrest

end LuaAssembly
