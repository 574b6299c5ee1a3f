import Mathlib
import LuaAssembly.Proofs.Source.Items
import LuaAssembly.Proofs.Source.Tiling

/-!
# Where literals end

Two readers look for the end of a literal.  The lexer steps over the byte behind each backslash;
`unquote` reads item by item.  Where a line ends the lexer gives up on the closing quote, and the
literal it has then is not accepted.

The main statements are that the two agree: no literal of the lexer has a quote inside that
`unquote` would take for its end, and what `unquote` accepts is one token, unless it goes over
several lines.  So a byte string can be written as a literal, and be read back, between any tokens.
-/
namespace LuaAssembly

/-! ## How the lexer ends a literal -/

namespace LexMode

/-- The mode of the lexer behind a piece of source. -/
def run (p : Position) (mode : LexMode) : Bytes → LexMode
  | [] => mode
  | b :: bs => run (p.advance b) (mode.step p b).2 bs

/-- Inside a literal, the lexer has read the opening quote and no closing one, and where the next
byte is escaped, a backslash at the end. -/
def Unclosed : LexMode → Prop
  | .literal _ read escaped => ∃ inside, IsInside inside ∧
      read.reverse = 0x22 :: (inside ++ if escaped then [0x5C] else [])
  | _ => True

end LexMode

theorem IsInside.append {xs ys : Bytes} (hxs : IsInside xs) (hys : IsInside ys) :
    IsInside (xs ++ ys) := by
  induction hxs with
  | nil => exact hys
  | plain hline hquote hslash _ ih => exact .plain hline hquote hslash ih
  | escape hline _ ih => exact .escape hline ih

namespace LexMode

theorem unclosed_openWith (p : Position) (b : UInt8) : (openWith p b).Unclosed := by
  rw [openWith]
  split_ifs with hblank hsemicolon hquote
  · trivial
  · trivial
  · exact ⟨[], .nil, by rw [hquote]; rfl⟩
  · trivial

/-- One byte either ends the literal or goes on inside of it. -/
theorem Unclosed.step {mode : LexMode} (h : mode.Unclosed) (p : Position) (b : UInt8) :
    (mode.step p b).2.Unclosed := by
  cases mode with
  | gap => exact unclosed_openWith p b
  | comment =>
    rw [LexMode.step]
    split_ifs <;> trivial
  | word start read =>
    rw [LexMode.step]
    split_ifs
    · exact unclosed_openWith p b
    · trivial
  | literal start read escaped =>
    obtain ⟨inside, hinside, hread⟩ := h
    rw [LexMode.step]
    split_ifs with hline hescaped hquote
    · trivial
    · refine ⟨inside ++ [0x5C, b], hinside.append (.escape hline .nil), ?_⟩
      rw [List.reverse_cons, hread, if_pos hescaped]
      simp
    · trivial
    · by_cases hslash : b = 0x5C
      · refine ⟨inside, hinside, ?_⟩
        rw [List.reverse_cons, hread, if_neg hescaped]
        simp [hslash]
      · refine ⟨inside ++ [b], hinside.append (.plain hline hquote hslash .nil), ?_⟩
        rw [List.reverse_cons, hread, if_neg hescaped]
        simp [hslash]

theorem Unclosed.run {mode : LexMode} (h : mode.Unclosed) (p : Position) (bs : Bytes) :
    (mode.run p bs).Unclosed := by
  induction bs generalizing p mode with
  | nil => exact h
  | cons b bs ih => exact ih (h.step p b) _

/-- The token is a literal that the lexer ends at a quote, one that is not escaped. -/
def Closes (p : Position) (mode : LexMode) (source : Bytes) (t : Token) : Prop :=
  ∃ lead rest read, source = lead ++ 0x22 :: rest ∧ mode.run p lead = .literal t.pos read false ∧
    t.literal = read.reverse ++ [0x22]

/-- The token is a literal that the lexer ends because the line or the source ends. -/
def CutsOff (p : Position) (mode : LexMode) (source : Bytes) (t : Token) : Prop :=
  ∃ lead rest escaped, source = lead ++ rest ∧ (∀ b ∈ rest.head?, b = 0x0A) ∧
    mode.run p lead = .literal t.pos t.literal.reverse escaped

variable {p : Position} {mode : LexMode} {source : Bytes} {t : Token}

theorem Closes.cons {b : UInt8} (h : Closes (p.advance b) (mode.step p b).2 source t) :
    Closes p mode (b :: source) t := by
  obtain ⟨lead, rest, read, rfl, hrun, hliteral⟩ := h
  exact ⟨b :: lead, rest, read, rfl, hrun, hliteral⟩

theorem CutsOff.cons {b : UInt8} (h : CutsOff (p.advance b) (mode.step p b).2 source t) :
    CutsOff p mode (b :: source) t := by
  obtain ⟨lead, rest, escaped, rfl, hrest, hrun⟩ := h
  exact ⟨b :: lead, rest, escaped, rfl, hrest, hrun⟩

/-- Where a literal could end, it is cut off when the line or the source ends. -/
theorem cutsOff_of_finish (h : mode.finish = some t) (hkind : t.kind = .string)
    (hsource : ∀ b ∈ source.head?, b = 0x0A) : CutsOff p mode source t := by
  cases mode with
  | gap => cases h
  | comment => cases h
  | word start read =>
    cases h
    cases hkind
  | literal start read escaped =>
    cases h
    exact ⟨[], source, escaped, rfl, hsource, by rw [List.reverse_reverse]; rfl⟩

/-- There are two ways to end a literal. -/
theorem closes_or_cutsOff (h : t ∈ tokensFrom p mode source) (hkind : t.kind = .string) :
    Closes p mode source t ∨ CutsOff p mode source t := by
  induction source generalizing p mode with
  | nil => exact .inr (cutsOff_of_finish (Option.mem_toList.1 h) hkind (by simp))
  | cons b source ih =>
    rw [tokensFrom, List.mem_append, Option.mem_toList] at h
    rcases h with h | h
    · -- the byte completes the token
      cases mode with
      | gap => cases h
      | comment => cases h
      | word start read =>
        rw [LexMode.step] at h
        split_ifs at h
        cases h
        cases hkind
      | literal start read escaped =>
        rw [LexMode.step] at h
        split_ifs at h with hline hescaped hquote
        · exact .inr (cutsOff_of_finish h hkind (by simpa using hline))
        · cases h
          obtain rfl : escaped = false := by simpa using hescaped
          exact .inl ⟨[], source, read, by rw [hquote]; rfl, rfl, by rw [hquote]; simp⟩
    · exact (ih h).imp Closes.cons CutsOff.cons

end LexMode

/-- There is no quote in a literal but behind a backslash, also when it is cut off. -/
theorem IsInside.append_ne {inside slash front rest : Bytes} (hinside : IsInside inside)
    (hslash : slash = [] ∨ slash = [0x5C]) (hfront : IsInside front) :
    inside ++ slash ≠ front ++ 0x22 :: rest := by
  -- Both go through the same bytes, and the backslashes that count are the same ones.
  induction hfront generalizing inside with
  | nil =>
    intro heq
    cases hinside with
    | nil => rcases hslash with rfl | rfl <;> cases heq
    | plain _ hquote _ _ => exact hquote (List.cons.inj heq).1
    | escape => cases heq
  | plain _ _ hslash' _ ih =>
    intro heq
    cases hinside with
    | nil =>
      rcases hslash with rfl | rfl
      · cases heq
      · exact hslash' (List.cons.inj heq).1.symm
    | plain _ _ _ h => exact ih h (List.cons.inj heq).2
    | escape => exact hslash' (List.cons.inj heq).1.symm
  | escape _ _ ih =>
    intro heq
    cases hinside with
    | nil => rcases hslash with rfl | rfl <;> cases heq
    | plain _ _ hslash' _ => exact hslash' (List.cons.inj heq).1
    | escape _ h => exact ih h (List.cons.inj (List.cons.inj heq).2).2

/-- The lexer starts outside of any literal. -/
theorem LexMode.unclosed_run (lead : Bytes) : (LexMode.run .start .gap lead).Unclosed :=
  have hgap : LexMode.gap.Unclosed := trivial
  hgap.run .start lead

theorem LexMode.Closes.isLiteral {source : Bytes} {t : Token}
    (h : Closes .start .gap source t) : IsLiteral t.literal := by
  obtain ⟨lead, rest, read, -, hrun, hliteral⟩ := h
  have hunclosed := unclosed_run lead
  rw [hrun] at hunclosed
  obtain ⟨inside, hinside, hread⟩ := hunclosed
  exact ⟨inside, hinside, by rw [hliteral, hread]; simp⟩

theorem LexMode.CutsOff.isUnclosed {source : Bytes} {t : Token}
    (h : CutsOff .start .gap source t) : IsUnclosed t.literal := by
  obtain ⟨lead, rest, escaped, -, -, hrun⟩ := h
  have hunclosed := unclosed_run lead
  rw [hrun] at hunclosed
  obtain ⟨inside, hinside, hread⟩ := hunclosed
  rw [List.reverse_reverse] at hread
  refine ⟨inside, _, hinside, ?_, hread⟩
  cases escaped with
  | true => exact .inr rfl
  | false => exact .inl rfl

/-! ## Items in a literal -/

namespace Literal

theorem isInside_append {bs rest : Bytes} (hbs : ∀ b ∈ bs, b ≠ 0x0A ∧ b ≠ 0x22 ∧ b ≠ 0x5C)
    (hrest : IsInside rest) : IsInside (bs ++ rest) := by
  induction bs with
  | nil => exact hrest
  | cons b bs ih =>
    rw [List.forall_mem_cons] at hbs
    obtain ⟨⟨hline, hquote, hslash⟩, hbs⟩ := hbs
    exact .plain hline hquote hslash (ih hbs)

theorem HexDigit.text_spec (d : HexDigit) : d.text ≠ 0x0A ∧ d.text ≠ 0x22 ∧ d.text ≠ 0x5C := by
  cases d with
  | decimal v => revert v; decide
  | lower v => revert v; decide
  | upper v => revert v; decide

theorem digit_spec {b : UInt8} (h : Bytes.isDigit b) : b ≠ 0x0A ∧ b ≠ 0x22 ∧ b ≠ 0x5C := by
  refine ⟨?_, ?_, ?_⟩
  all_goals
    rintro rfl
    exact absurd h (by decide)

/-- The lexer steps over whole items. -/
theorem Item.isInside_text_append {item : Item} {rest : Bytes} (hline : 0x0A ∉ item.text)
    (hrest : IsInside rest) : IsInside (item.text ++ rest) := by
  cases item with
  | plain b hquote hslash =>
    refine .plain ?_ hquote hslash hrest
    simpa [Item.text, eq_comm] using hline
  | short e b hmem =>
    refine .escape ?_ hrest
    simpa [Item.text, eq_comm] using hline
  | hex hi lo =>
    have hdigits : ∀ b ∈ [hi.text, lo.text], b ≠ 0x0A ∧ b ≠ 0x22 ∧ b ≠ 0x5C := by
      simp [hi.text_spec, lo.text_spec]
    exact .escape (by decide) (isInside_append hdigits hrest)
  | decimal ds hrun =>
    obtain ⟨d, ds, rfl⟩ := List.exists_cons_of_ne_nil hrun.nonempty
    refine .escape (digit_spec hrun.digits.head).1 (isInside_append ?_ hrest)
    exact fun b hb => digit_spec (hrun.digits.tail b hb)

theorem MadeOf.isInside {items : List Item} {body : Bytes} (h : MadeOf items body)
    (hline : 0x0A ∉ body) : IsInside body := by
  induction h with
  | nil => exact .nil
  | cons _ _ ih =>
    rw [List.mem_append, not_or] at hline
    exact Item.isInside_text_append hline.1 (ih hline.2)

/-- A quote that ends reading too early is one that the lexer would have stopped at. -/
theorem exists_isInside {body : Bytes} (h : unescape body = .error .unescapedQuote)
    (hline : 0x0A ∉ body) : ∃ front rest, IsInside front ∧ body = front ++ 0x22 :: rest := by
  induction body using unescape_induction with
  | nil => cases h
  | quote rest => exact ⟨[], rest, .nil, rfl⟩
  | item item rest hstops ih =>
    rw [List.mem_append, not_or] at hline
    rw [unescape_text hstops] at h
    have hrest : unescape rest = .error .unescapedQuote := by
      cases hread : unescape rest with
      | ok s =>
        rw [hread] at h
        cases h
      | error e =>
        rw [hread] at h
        exact h
    obtain ⟨front, tail, hfront, rfl⟩ := ih hrest hline.2
    refine ⟨item.text ++ front, tail, Item.isInside_text_append hline.1 hfront, ?_⟩
    rw [List.append_assoc]
  | stuck body e he herror =>
    rw [herror] at h
    exact absurd (Except.error.inj h) he

/-- What is accepted in one line is a literal of the lexer. -/
theorem isLiteral_of_unquote {l s : Bytes} (h : unquote l = .ok s) (hline : 0x0A ∉ l) :
    IsLiteral l := by
  rcases quoted_or_error l with ⟨body, rfl⟩ | herror
  · rw [unquote_quoted] at h
    obtain ⟨items, hitems⟩ := exists_madeOf h
    have hbody : 0x0A ∉ body := fun hmem => hline (by simp [hmem])
    exact ⟨body, hitems.isInside hbody, rfl⟩
  · rw [herror] at h
    cases h

theorem not_isLiteral_of_isUnclosed {l : Bytes} (h : IsUnclosed l) : ¬IsLiteral l := by
  rintro ⟨front, hfront, rfl⟩
  obtain ⟨inside, slash, hinside, hslash, heq⟩ := h
  exact hinside.append_ne hslash hfront (List.cons.inj heq).2.symm

/-- A literal of the lexer, closed or not, stays in one line. -/
theorem newline_not_mem {l : Bytes} (h : IsLiteral l ∨ IsUnclosed l) : 0x0A ∉ l := by
  have hreads : TokenKind.string.Reads l [] :=
    h.elim .literal fun hunclosed => .unclosed hunclosed (by simp)
  exact hreads.newline_not_mem

/-- The closing quote of a literal is the first that counts. -/
theorem unquote_ne_unescapedQuote {l : Bytes} (h : IsLiteral l ∨ IsUnclosed l) :
    unquote l ≠ .error .unescapedQuote := by
  intro herror
  have hline := newline_not_mem h
  rcases quoted_or_error l with ⟨body, rfl⟩ | hquoted
  · rw [unquote_quoted] at herror
    obtain ⟨front, rest, hfront, rfl⟩ := exists_isInside herror fun hmem => hline (by simp [hmem])
    rcases h with ⟨inside, hinside, heq⟩ | ⟨inside, slash, hinside, hslash, heq⟩
    · obtain rfl := List.append_cancel_right (List.cons.inj heq).2
      exact hinside.append_ne (.inl rfl) hfront (List.append_nil _)
    · -- The last quote is the byte behind a backslash, and there is one more in front of it.
      have hinside' : inside ++ slash = front ++ 0x22 :: (rest ++ [0x22]) := by
        simpa using heq.symm
      exact hinside.append_ne hslash hfront hinside'
  · rw [hquoted] at herror
    cases herror

theorem exists_error_of_isUnclosed {l : Bytes} (h : IsUnclosed l) :
    ∃ e, unquote l = .error e := by
  cases hread : unquote l with
  | error e => exact ⟨e, rfl⟩
  | ok s =>
    have hliteral := isLiteral_of_unquote hread (newline_not_mem (.inr h))
    exact absurd hliteral (not_isLiteral_of_isUnclosed h)

end Literal

/-! ## Agreement -/

/-- Between tokens, and whatever follows, the lexer reads the text as one literal and goes on behind
it. -/
def IsStringToken (l : Bytes) : Prop :=
  ∀ (p : Position) (done : List Token) (rest : Bytes),
    lexFrom p .gap done (l ++ rest) =
      lexFrom (p.shift l.length) .gap (⟨.string, l, p⟩ :: done) rest

theorem IsLiteral.isStringToken {l : Bytes} (h : IsLiteral l) : IsStringToken l := by
  intro p done rest
  have hreads : TokenKind.string.Reads l rest := .literal h
  have hstop := Position.foldl_advance_of_line hreads.newline_not_mem p
  rw [lexFrom_eq, lexFrom_eq, hreads.tokensFrom_eq, List.foldl_append, hstop]
  simp

/-- The lexer and `unquote` agree on where literals end.  Every literal that the lexer finds is
either closed or cut off.  It has no quote inside that counts, and it is not accepted when it is cut
off.  And a literal that is accepted, and that does not go over several lines, is one token wherever
it stands. -/
theorem literal_ends_agree :
    (∀ (source : Bytes) (t : Token), t ∈ tokenize source → t.kind = .string →
      (LexMode.Closes .start .gap source t ↔ ¬LexMode.CutsOff .start .gap source t) ∧
      Literal.unquote t.literal ≠ .error .unescapedQuote ∧
      (LexMode.CutsOff .start .gap source t → ∃ e, Literal.unquote t.literal = .error e)) ∧
    ∀ l s : Bytes, 0x0A ∉ l → Literal.unquote l = .ok s → IsStringToken l := by
  refine ⟨fun source t ht hkind => ?_, fun l s hline hread => ?_⟩
  · rw [tokenize_eq] at ht
    have hends := LexMode.closes_or_cutsOff ht hkind
    refine ⟨⟨fun hcloses hcut => ?_, hends.resolve_right⟩, ?_, fun hcut => ?_⟩
    · exact Literal.not_isLiteral_of_isUnclosed hcut.isUnclosed hcloses.isLiteral
    · exact Literal.unquote_ne_unescapedQuote
        (hends.imp LexMode.Closes.isLiteral LexMode.CutsOff.isUnclosed)
    · exact Literal.exists_error_of_isUnclosed hcut.isUnclosed
  · exact (Literal.isLiteral_of_unquote hread hline).isStringToken

/-- The literal `"\x\"`, whose last quote is escaped. -/
def cutLiteral : Bytes :=
  [0x22, 0x5C, 0x78, 0x5C, 0x22]

/-- The literal `"a;\34\\"`, which is closed behind an escaped backslash. -/
def closedLiteral : Bytes :=
  [0x22, 0x61, 0x3B, 0x5C, 0x33, 0x34, 0x5C, 0x5C, 0x22]

theorem literal_ends_agree_cutLiteral :
    (⟨.string, cutLiteral, .start⟩ : Token) ∈ tokenize (cutLiteral ++ 0x0A :: closedLiteral) ∧
      LexMode.CutsOff .start .gap (cutLiteral ++ 0x0A :: closedLiteral)
        ⟨.string, cutLiteral, .start⟩ ∧
      Literal.unquote cutLiteral ≠ .error .unescapedQuote ∧
      (∃ e, Literal.unquote cutLiteral = .error e) ∧ 0x0A ∉ closedLiteral ∧
      Literal.unquote closedLiteral = .ok [0x61, 0x3B, 0x22, 0x5C] ∧
      IsStringToken closedLiteral := by
  obtain ⟨hends, hone⟩ := literal_ends_agree
  have hmem : (⟨.string, cutLiteral, .start⟩ : Token) ∈
      tokenize (cutLiteral ++ 0x0A :: closedLiteral) := by decide
  have hcut : LexMode.CutsOff .start .gap (cutLiteral ++ 0x0A :: closedLiteral)
      ⟨.string, cutLiteral, .start⟩ :=
    ⟨cutLiteral, 0x0A :: closedLiteral, false, rfl, by simp, rfl⟩
  have hline : 0x0A ∉ closedLiteral := by decide
  have hread : Literal.unquote closedLiteral = .ok [0x61, 0x3B, 0x22, 0x5C] := rfl
  obtain ⟨-, hquote, herror⟩ := hends _ _ hmem rfl
  exact ⟨hmem, hcut, hquote, herror hcut, hline, hread, hone _ _ hline hread⟩

/-! ## Quoted byte strings -/

namespace Literal

/-- A byte is written with printable characters. -/
theorem printable_quoteByte (b : UInt8) : ∀ c ∈ quoteByte b, 0x20 ≤ c ∧ c ≤ 0x7E := by
  have hdigit : ∀ v < 10, 0x20 ≤ Numeral.digit v ∧ Numeral.digit v ≤ 0x7E := by decide
  rw [quoteByte]
  split_ifs with h₁ h₂ h₃ h₄ h₅ h₆
  · simp
  · simp
  · simp
  · simp
  · simp
  · intro c hc
    rw [List.mem_singleton.1 hc]
    refine ⟨h₆.1, ?_⟩
    have hlt := UInt8.lt_iff_toNat_lt.1 h₆.2
    exact UInt8.le_iff_toNat_le.2 (Nat.le_of_lt_succ hlt)
  · intro c hc
    rcases List.mem_cons.1 hc with rfl | hc
    · decide
    · obtain ⟨v, hv, rfl⟩ := Numeral.exists_digit_of_mem_fixed (by decide) hc
      exact hdigit v hv

/-- Quoting loses nothing.  A byte string is written in printable characters, it is read back from
there, and the lexer finds it as one token wherever it stands. -/
theorem quote_lossless (s : Bytes) :
    (∀ b ∈ quote s, 0x20 ≤ b ∧ b ≤ 0x7E) ∧ unquote (quote s) = .ok s ∧
      IsStringToken (quote s) := by
  refine ⟨?_, unquote_quote s, ?_⟩
  · intro b hb
    simp only [quote, List.mem_cons, List.mem_append, List.mem_flatMap, List.not_mem_nil,
      or_false] at hb
    rcases hb with rfl | ⟨c, -, hb⟩ | rfl
    · decide
    · exact printable_quoteByte c b hb
    · decide
  · exact (isLiteral_of_unquote (unquote_quote s) (newline_not_mem_quote s)).isStringToken

/-- A byte that is written as an escape, in front of a digit. -/
theorem quote_lossless_digit :
    0x5C ∈ quote [0x00, 0x31] ∧ ((0x20 : UInt8) ≤ 0x5C ∧ (0x5C : UInt8) ≤ 0x7E) ∧
      unquote (quote [0x00, 0x31]) = .ok [0x00, 0x31] ∧ IsStringToken (quote [0x00, 0x31]) := by
  obtain ⟨hprintable, hread, htoken⟩ := quote_lossless [0x00, 0x31]
  have hmem : 0x5C ∈ quote [0x00, 0x31] := by decide
  exact ⟨hmem, hprintable _ hmem, hread, htoken⟩

end Literal

end LuaAssembly
