import Mathlib
import LuaAssembly.Proofs.Source.Lexing
import LuaAssembly.Proofs.Source.Tokens

/-!
# Source as tokens and gaps

Source is cut into tokens and the gaps between them.  `Tiles p bs ts` says how, from position `p`
on: a gap is made of blanks and of comments, a word goes on up to a blank or a semicolon, and a
literal up to its closing quote or to the end of its line.  The rules do not refer to the lexer, and
the lexer finds the tokens that tile the source.
-/
namespace LuaAssembly

/-! ## Lines -/

/-- The end of a line completes the token in front of it, if there is one. -/
theorem LexMode.step_line (mode : LexMode) (p : Position) :
    mode.step p 0x0A = (mode.finish, .gap) := by
  cases mode with
  | gap => rfl
  | comment => rfl
  | word start read => rfl
  | literal start read escaped => rfl

/-- No token goes on behind the end of a line. -/
theorem tokensFrom_append_line (p : Position) (mode : LexMode) (bs rest : Bytes) :
    tokensFrom p mode (bs ++ 0x0A :: rest) =
      tokensFrom p mode bs ++ tokensFrom ((bs ++ [0x0A]).foldl .advance p) .gap rest := by
  induction bs generalizing p mode with
  | nil =>
    show (mode.step p 0x0A).1.toList ++ tokensFrom (p.advance 0x0A) (mode.step p 0x0A).2 rest = _
    rw [LexMode.step_line]
    rfl
  | cons b bs ih =>
    rw [List.cons_append, tokensFrom, ih, tokensFrom, List.append_assoc]
    rfl

/-- Where a line ends or nothing follows, a token ends too. -/
theorem tokensFrom_of_line (p : Position) (mode : LexMode) {rest : Bytes}
    (hrest : ∀ b ∈ rest.head?, b = 0x0A) :
    tokensFrom p mode rest = mode.finish.toList ++ tokensFrom p .gap rest := by
  cases rest with
  | nil => exact (List.append_nil _).symm
  | cons b rest =>
    obtain rfl : b = 0x0A := hrest b rfl
    exact (tokensFrom_append_line p mode [] rest).trans rfl

/-! ## Gaps -/

/-- What stands between tokens: blanks, and comments up to the end of their lines. -/
inductive IsGap : Bytes → Prop where
  | nil : IsGap []
  | blank {b : UInt8} {bs : Bytes} (hb : isBlank b) (h : IsGap bs) : IsGap (b :: bs)
  | comment {body bs : Bytes} (hbody : 0x0A ∉ body) (h : IsGap bs) :
    IsGap (0x3B :: (body ++ 0x0A :: bs))

theorem IsGap.append {gap gap' : Bytes} (h : IsGap gap) (h' : IsGap gap') :
    IsGap (gap ++ gap') := by
  induction h with
  | nil => exact h'
  | blank hb _ ih => exact .blank hb ih
  | comment hbody _ ih => simpa using IsGap.comment hbody ih

theorem tokensFrom_comment {body : Bytes} (hbody : 0x0A ∉ body) (p : Position) :
    tokensFrom p .comment body = [] := by
  induction body generalizing p with
  | nil => rfl
  | cons b body ih =>
    rw [List.mem_cons, not_or] at hbody
    rw [tokensFrom, LexMode.step, if_neg (Ne.symm hbody.1)]
    exact ih hbody.2 _

/-- There is no token in a gap. -/
theorem IsGap.tokensFrom_eq {gap : Bytes} (h : IsGap gap) (p : Position) (rest : Bytes) :
    tokensFrom p .gap (gap ++ rest) = tokensFrom (gap.foldl .advance p) .gap rest := by
  induction h generalizing p with
  | nil => rfl
  | blank hb _ ih =>
    rw [List.cons_append, tokensFrom, LexMode.step, LexMode.openWith, if_pos hb]
    exact ih _
  | @comment body gap hbody _ ih =>
    have hopen : LexMode.step p 0x3B .gap = (none, .comment) := rfl
    rw [List.cons_append, tokensFrom, hopen, List.append_assoc, List.cons_append,
      tokensFrom_append_line, tokensFrom_comment hbody, ih]
    simp

/-- The last gap may be a comment that no new line ends. -/
theorem tokensFrom_of_isGap_line {gap : Bytes} (h : IsGap (gap ++ [0x0A])) (p : Position) :
    tokensFrom p .gap gap = [] := by
  have hline := h.tokensFrom_eq p []
  rw [List.append_nil, tokensFrom_append_line] at hline
  exact (List.append_eq_nil_iff.1 hline).1

/-! ## Tokens -/

/-- What may stand between the quotes of a literal: no quote and no end of a line, but a backslash
takes the byte behind it along. -/
inductive IsInside : Bytes → Prop where
  | nil : IsInside []
  | plain {b : UInt8} {bs : Bytes} (hline : b ≠ 0x0A) (hquote : b ≠ 0x22) (hslash : b ≠ 0x5C)
    (h : IsInside bs) : IsInside (b :: bs)
  | escape {e : UInt8} {bs : Bytes} (hline : e ≠ 0x0A) (h : IsInside bs) :
    IsInside (0x5C :: e :: bs)

/-- A literal with its quotes: the first quote behind the opening one that is not escaped is the
last byte. -/
def IsLiteral (l : Bytes) : Prop :=
  ∃ inside, IsInside inside ∧ l = 0x22 :: (inside ++ [0x22])

/-- A literal without a closing quote.  There may be a backslash at its end, which has nothing to
take along. -/
def IsUnclosed (l : Bytes) : Prop :=
  ∃ inside slash, IsInside inside ∧ (slash = [] ∨ slash = [0x5C]) ∧ l = 0x22 :: (inside ++ slash)

/-- The text is a token of the class where `rest` follows it. -/
inductive TokenKind.Reads : TokenKind → Bytes → Bytes → Prop where
  | word {w rest : Bytes} (hw : IsWord w) (hrest : ∀ b ∈ rest.head?, isBlank b ∨ b = 0x3B) :
    Reads .word w rest
  | literal {l rest : Bytes} (hl : IsLiteral l) : Reads .string l rest
  | unclosed {l rest : Bytes} (hl : IsUnclosed l) (hrest : ∀ b ∈ rest.head?, b = 0x0A) :
    Reads .string l rest

theorem tokensFrom_word {bs rest : Bytes} (hbs : WordBytes bs)
    (hrest : ∀ b ∈ rest.head?, isBlank b ∨ b = 0x3B) (p start : Position) (read : Bytes) :
    tokensFrom p (.word start read) (bs ++ rest) =
      ⟨.word, read.reverse ++ bs, start⟩ :: tokensFrom (bs.foldl .advance p) .gap rest := by
  induction bs generalizing p read with
  | nil =>
    rw [List.append_nil]
    cases rest with
    | nil => rfl
    | cons b rest =>
      have hb : (isBlank b || b = 0x3B) = true := by simpa using hrest b rfl
      rw [List.nil_append, tokensFrom, LexMode.step, if_pos hb]
      rfl
  | cons b bs ih =>
    rw [WordBytes, List.forall_mem_cons] at hbs
    have hb : (isBlank b || b = 0x3B) ≠ true := by simp [hbs.1.1, hbs.1.2]
    rw [List.cons_append, tokensFrom, LexMode.step, if_neg hb]
    simpa using ih hbs.2 (p.advance b) (b :: read)

/-- The lexer goes on inside the literal. -/
theorem IsInside.tokensFrom_eq {inside : Bytes} (h : IsInside inside) (p start : Position)
    (read rest : Bytes) :
    tokensFrom p (.literal start read false) (inside ++ rest) =
      tokensFrom (inside.foldl .advance p) (.literal start (inside.reverse ++ read) false)
        rest := by
  have htokens : ∀ {p q : Position} {m m' : LexMode} {bs bs' : Bytes},
      lexFrom p m [] bs = lexFrom q m' [] bs' → tokensFrom p m bs = tokensFrom q m' bs' := by
    intro p q m m' bs bs' heq
    simpa [lexFrom_eq] using congrArg Lexed.tokens heq
  induction h generalizing p read with
  | nil => rfl
  | @plain b inside hline hquote hslash _ ih =>
    rw [List.cons_append, htokens (lexFrom_literal_plain p start read _ [] hline hquote hslash), ih]
    simp
  | @escape e inside hline _ ih =>
    rw [List.cons_append, List.cons_append,
      htokens (lexFrom_literal_escape p start read _ [] hline), ih]
    simp

/-- The lexer finds the token, and goes on behind it. -/
theorem TokenKind.Reads.tokensFrom_eq {kind : TokenKind} {text rest : Bytes}
    (h : kind.Reads text rest) (p : Position) :
    tokensFrom p .gap (text ++ rest) =
      ⟨kind, text, p⟩ :: tokensFrom (text.foldl .advance p) .gap rest := by
  cases h with
  | word hw hrest =>
    obtain ⟨hne, hfirst, hbytes⟩ := hw
    obtain ⟨b, bs, rfl⟩ := List.exists_cons_of_ne_nil hne
    have hb : b ≠ 0x22 := fun h => hfirst (congrArg some h)
    rw [WordBytes, List.forall_mem_cons] at hbytes
    rw [List.cons_append, tokensFrom, LexMode.step, LexMode.openWith, if_neg (by simp [hbytes.1.1]),
      if_neg hbytes.1.2, if_neg hb]
    exact tokensFrom_word hbytes.2 hrest _ p [b]
  | literal hl =>
    obtain ⟨inside, hinside, rfl⟩ := hl
    have hopen : LexMode.step p 0x22 .gap = (none, .literal p [0x22] false) := rfl
    rw [List.cons_append, List.append_assoc, tokensFrom, hopen, hinside.tokensFrom_eq]
    simp [tokensFrom, LexMode.step, LexMode.finish]
  | unclosed hl hrest =>
    obtain ⟨inside, slash, hinside, hslash, rfl⟩ := hl
    have hopen : LexMode.step p 0x22 .gap = (none, .literal p [0x22] false) := rfl
    rw [List.cons_append, List.append_assoc, tokensFrom, hopen, hinside.tokensFrom_eq]
    rcases hslash with rfl | rfl
    · rw [List.nil_append, tokensFrom_of_line _ _ hrest]
      simp [LexMode.finish]
    · rw [List.singleton_append, tokensFrom, tokensFrom_of_line _ _ hrest]
      simp [LexMode.step, LexMode.finish]

/-! ## Tilings -/

/-- From position `p` on, the source is gaps and the tokens, in this order. -/
inductive Tiles : Position → Bytes → List Token → Prop where
  | nil {p : Position} {gap : Bytes} (hgap : IsGap (gap ++ [0x0A])) : Tiles p gap []
  | cons {p : Position} {gap rest : Bytes} {t : Token} {ts : List Token} (hgap : IsGap gap)
    (hpos : t.pos = gap.foldl .advance p) (ht : t.kind.Reads t.literal rest)
    (hrest : Tiles (t.literal.foldl .advance t.pos) rest ts) :
    Tiles p (gap ++ (t.literal ++ rest)) (t :: ts)

/-- The lexer finds the tokens that tile the source. -/
theorem Tiles.tokensFrom_eq {p : Position} {bs : Bytes} {ts : List Token} (h : Tiles p bs ts) :
    tokensFrom p .gap bs = ts := by
  induction h with
  | nil hgap => exact tokensFrom_of_isGap_line hgap _
  | cons hgap hpos ht _ ih => rw [hgap.tokensFrom_eq, ← hpos, ht.tokensFrom_eq, ih]

/-! ## Positions -/

namespace Position

/-- The position behind a piece of source: its length, the number of new lines in it, and what it
has behind the last of them. -/
def behind (lead : Bytes) : Position :=
  ⟨lead.length, 1 + lead.count 0x0A, 1 + (lead.afterLast 0x0A).length⟩

theorem foldl_advance_start (lead : Bytes) : lead.foldl advance start = behind lead := by
  induction lead using List.reverseRecOn with
  | nil => rfl
  | append_singleton lead b ih =>
    rw [List.foldl_append, List.foldl_cons, List.foldl_nil, ih, advance]
    by_cases hb : b = 0x0A
    · simp [behind, Bytes.afterLast, hb, add_assoc]
    · simp [behind, Bytes.afterLast, hb, add_assoc]

/-- Within a line, bytes only move the column. -/
theorem foldl_advance_of_line {bs : Bytes} (hbs : 0x0A ∉ bs) (p : Position) :
    bs.foldl advance p = p.shift bs.length := by
  induction bs using List.reverseRecOn with
  | nil => simp [shift]
  | append_singleton bs b ih =>
    simp only [List.mem_append, List.mem_singleton, not_or] at hbs
    rw [List.foldl_append, ih hbs.1, List.length_append, List.length_singleton, shift_succ]
    exact advance_eq_shift _ (Ne.symm hbs.2)

end Position

theorem IsInside.newline_not_mem {inside : Bytes} (h : IsInside inside) : 0x0A ∉ inside := by
  induction h with
  | nil => simp
  | plain hline _ _ _ ih => simp [ih, Ne.symm hline]
  | escape hline _ ih => simp [ih, Ne.symm hline]

namespace TokenKind.Reads

variable {kind : TokenKind} {text rest : Bytes}

theorem ne_nil (h : kind.Reads text rest) : text ≠ [] := by
  cases h with
  | word hw _ => exact hw.nonempty
  | literal hl =>
    obtain ⟨inside, -, rfl⟩ := hl
    exact List.cons_ne_nil _ _
  | unclosed hl _ =>
    obtain ⟨inside, slash, -, -, rfl⟩ := hl
    exact List.cons_ne_nil _ _

theorem newline_not_mem (h : kind.Reads text rest) : 0x0A ∉ text := by
  cases h with
  | word hw _ => exact fun hmem => absurd (hw.bytes _ hmem).1 (by decide)
  | literal hl =>
    obtain ⟨inside, hinside, rfl⟩ := hl
    simp [hinside.newline_not_mem]
  | unclosed hl _ =>
    obtain ⟨inside, slash, hinside, rfl | rfl, rfl⟩ := hl
    · simp [hinside.newline_not_mem]
    · simp [hinside.newline_not_mem]

end TokenKind.Reads

/-- The token is a piece of the source, not empty and in one line, and stands where it says. -/
def Token.PlacedIn (source : Bytes) (t : Token) : Prop :=
  ∃ lead tail, source = lead ++ (t.literal ++ tail) ∧ t.literal ≠ [] ∧ 0x0A ∉ t.literal ∧
    t.pos = .behind lead ∧ t.stop = .behind (lead ++ t.literal)

namespace Tiles

variable {p : Position} {bs : Bytes} {t : Token} {ts : List Token}

theorem exists_of_mem (h : Tiles p bs ts) (ht : t ∈ ts) :
    ∃ lead tail, bs = lead ++ (t.literal ++ tail) ∧ t.pos = lead.foldl .advance p ∧
      t.kind.Reads t.literal tail := by
  induction h with
  | nil => cases ht
  | @cons p gap rest u ts _ hpos hu _ ih =>
    rcases List.mem_cons.1 ht with rfl | ht
    · exact ⟨gap, rest, rfl, hpos, hu⟩
    · obtain ⟨lead, tail, rfl, hlead, hreads⟩ := ih ht
      refine ⟨gap ++ (u.literal ++ lead), tail, by simp only [List.append_assoc], ?_, hreads⟩
      rw [List.foldl_append, List.foldl_append, ← hpos, hlead]

theorem placedIn (h : Tiles .start bs ts) (ht : t ∈ ts) : t.PlacedIn bs := by
  obtain ⟨lead, tail, hbs, hpos, hreads⟩ := h.exists_of_mem ht
  refine ⟨lead, tail, hbs, hreads.ne_nil, hreads.newline_not_mem, ?_, ?_⟩
  · rw [hpos, Position.foldl_advance_start]
  · rw [← Position.foldl_advance_start, List.foldl_append, ← hpos,
      Position.foldl_advance_of_line hreads.newline_not_mem]
    rfl

theorem offset_le (h : Tiles p bs ts) (ht : t ∈ ts) : p.offset ≤ t.pos.offset := by
  obtain ⟨lead, tail, -, hpos, -⟩ := h.exists_of_mem ht
  rw [hpos, Position.offset_foldl_advance]
  omega

/-- Each token starts where the one before it has ended, or later. -/
theorem pairwise (h : Tiles p bs ts) :
    ts.Pairwise fun t u => t.pos.offset < u.pos.offset ∧ t.stop.offset ≤ u.pos.offset := by
  induction h with
  | nil => exact .nil
  | @cons p gap rest t ts _ _ ht hrest ih =>
    refine .cons (fun u hu => ?_) ih
    have hle := hrest.offset_le hu
    have hlength := List.length_pos_iff.2 ht.ne_nil
    rw [Position.offset_foldl_advance] at hle
    exact ⟨by omega, hle⟩

end Tiles

/-! ## Bytes outside tokens -/

/-- The bytes from `j` up to `e` are a comment: a semicolon and the rest of its line. -/
structure IsComment (bs : Bytes) (j e : Nat) : Prop where
  semicolon : bs[j]? = some 0x3B
  line : ∀ k, j ≤ k → k < e → bs[k]? ≠ some 0x0A
  stop : e = bs.length ∨ bs[e]? = some 0x0A

/-- The byte with the given offset belongs to the token. -/
def Token.Covers (t : Token) (i : Int) : Prop :=
  t.pos.offset ≤ i ∧ i < t.stop.offset

namespace IsComment

variable {bs : Bytes} {j e : Nat}

theorem append_left (h : IsComment bs j e) (front : Bytes) :
    IsComment (front ++ bs) (front.length + j) (front.length + e) where
  semicolon := by
    rw [List.getElem?_append_right (by omega), Nat.add_sub_cancel_left]
    exact h.semicolon
  line k hj he := by
    rw [List.getElem?_append_right (by omega)]
    exact h.line _ (by omega) (by omega)
  stop := by
    rw [List.getElem?_append_right (by omega), Nat.add_sub_cancel_left, List.length_append]
    exact h.stop.imp_left (by omega)

theorem lt_length (h : IsComment bs j e) : j < bs.length :=
  (List.getElem?_eq_some_iff.1 h.semicolon).1

/-- A comment whose line ends within the piece. -/
theorem append_right (h : IsComment bs j e) (he : e < bs.length) (more : Bytes) :
    IsComment (bs ++ more) j e where
  semicolon := by
    rw [List.getElem?_append_left h.lt_length]
    exact h.semicolon
  line k hj hk := by
    rw [List.getElem?_append_left (by omega)]
    exact h.line k hj hk
  stop := by
    rw [List.getElem?_append_left he]
    exact .inr (h.stop.resolve_left (by omega))

theorem of_body {body : Bytes} (hbody : 0x0A ∉ body) (more : Bytes) :
    IsComment (0x3B :: (body ++ 0x0A :: more)) 0 (body.length + 1) where
  semicolon := rfl
  line k _ hk := by
    cases k with
    | zero => simp
    | succ k =>
      rw [List.getElem?_cons_succ, List.getElem?_append_left (by omega)]
      exact fun hmem => hbody (List.mem_of_getElem? hmem)
  stop := by simp

/-- A comment that the end of the piece cuts off, where a new line would follow. -/
theorem of_append_line (h : IsComment (bs ++ [0x0A]) j e) (hj : j < e) (he : e ≤ bs.length) :
    IsComment bs j e := by
  have hsame : ∀ k < bs.length, (bs ++ [0x0A])[k]? = bs[k]? :=
    fun k hk => List.getElem?_append_left hk
  refine ⟨?_, fun k hk hk' => ?_, ?_⟩
  · rw [← hsame j (by omega)]
    exact h.semicolon
  · rw [← hsame k (by omega)]
    exact h.line k hk hk'
  · rcases he.eq_or_lt with he | he
    · exact .inl he
    · rw [← hsame e he]
      exact .inr (h.stop.resolve_left (by simp; omega))

end IsComment

/-- A byte of a gap is a blank, or it belongs to a comment that ends within the gap. -/
theorem IsGap.blank_or_comment {gap : Bytes} (h : IsGap gap) {i : Nat} {b : UInt8}
    (hi : gap[i]? = some b) :
    isBlank b ∨ ∃ j e, IsComment gap j e ∧ j ≤ i ∧ i < e ∧ e < gap.length := by
  induction h generalizing i with
  | nil => simp at hi
  | @blank c gap hc _ ih =>
    cases i with
    | zero =>
      obtain rfl : c = b := by simpa using hi
      exact .inl hc
    | succ i =>
      refine (ih hi).imp_right ?_
      rintro ⟨j, e, hcomment, hj, he, hlength⟩
      exact ⟨_, _, hcomment.append_left [c], by simp; omega, by simp; omega, by simp; omega⟩
  | @comment body gap hbody _ ih =>
    rcases Nat.lt_trichotomy i (body.length + 1) with hlt | rfl | hgt
    · exact .inr ⟨0, _, .of_body hbody gap, by omega, hlt, by simp⟩
    · -- the new line behind the comment
      obtain rfl : (0x0A : UInt8) = b := by simpa using hi
      exact .inl (by decide)
    · have hfront : 0x3B :: (body ++ 0x0A :: gap) = 0x3B :: (body ++ [0x0A]) ++ gap := by simp
      have hlength : (0x3B :: (body ++ [0x0A])).length = body.length + 2 := by simp
      rw [hfront, List.getElem?_append_right (by omega)] at hi
      refine (ih hi).imp_right ?_
      rintro ⟨j, e, hcomment, hj, he, hgap⟩
      rw [hfront, List.length_append]
      exact ⟨_, _, hcomment.append_left _, by omega, by omega, by omega⟩

/-- A byte outside all tokens is a blank, or it belongs to a comment with no token in it. -/
theorem Tiles.blank_or_comment {p : Position} {bs : Bytes} {ts : List Token} (h : Tiles p bs ts)
    {i : Nat} {b : UInt8} (hi : bs[i]? = some b) :
    (∃ t ∈ ts, t.Covers (p.offset + i)) ∨ isBlank b ∨
      ∃ j e, IsComment bs j e ∧ j ≤ i ∧ i < e ∧
        ∀ k, j ≤ k → k < e → ∀ t ∈ ts, ¬t.Covers (p.offset + k) := by
  induction h generalizing i with
  | @nil p gap hgap =>
    have hlt : i < gap.length := (List.getElem?_eq_some_iff.1 hi).1
    have hi' : (gap ++ [0x0A])[i]? = some b := by rw [List.getElem?_append_left hlt, hi]
    refine .inr ((hgap.blank_or_comment hi').imp_right ?_)
    rintro ⟨j, e, hcomment, hj, he, hlength⟩
    rw [List.length_append, List.length_singleton] at hlength
    exact ⟨j, e, hcomment.of_append_line (by omega) (by omega), hj, he, by simp⟩
  | @cons p gap rest t ts hgap hpos ht hrest ih =>
    have hstart : t.pos.offset = p.offset + gap.length := by
      rw [hpos, Position.offset_foldl_advance]
    have hstop : t.stop.offset = t.pos.offset + t.literal.length := rfl
    have hnext : (t.literal.foldl Position.advance t.pos).offset =
        p.offset + (gap.length + t.literal.length : Nat) := by
      rw [Position.offset_foldl_advance, hstart]
      push_cast
      ring
    rcases Nat.lt_or_ge i gap.length with hlt | hge
    · -- in the gap, where the line of a comment ends before the token
      rw [List.getElem?_append_left hlt] at hi
      refine .inr ((hgap.blank_or_comment hi).imp_right ?_)
      rintro ⟨j, e, hcomment, hj, he, hlength⟩
      refine ⟨j, e, hcomment.append_right hlength _, hj, he, fun k _ hk u hu hcovers => ?_⟩
      rcases List.mem_cons.1 hu with rfl | hu
      · have := hcovers.1
        omega
      · have := hrest.offset_le hu
        have := hcovers.1
        omega
    · rw [List.getElem?_append_right hge] at hi
      rcases Nat.lt_or_ge (i - gap.length) t.literal.length with hlt | hge'
      · exact .inl ⟨t, List.mem_cons_self, by omega, by omega⟩
      · rw [List.getElem?_append_right hge'] at hi
        have hoffset : ∀ k : Nat, gap.length + t.literal.length ≤ k →
            p.offset + k = (t.literal.foldl Position.advance t.pos).offset +
              (k - (gap.length + t.literal.length) : Nat) := by
          intro k hk
          rw [hnext]
          omega
        rcases ih hi with ⟨u, hu, hcovers⟩ | hblank | ⟨j, e, hcomment, hj, he, hout⟩
        · refine .inl ⟨u, List.mem_cons_of_mem _ hu, ?_⟩
          rwa [hoffset i (by omega), ← Nat.sub_sub]
        · exact .inr (.inl hblank)
        · refine .inr (.inr ⟨gap.length + t.literal.length + j, gap.length + t.literal.length + e,
            ?_, by omega, by omega, fun k hk hk' u hu => ?_⟩)
          · simpa using hcomment.append_left (gap ++ t.literal)
          · rcases List.mem_cons.1 hu with rfl | hu
            · rintro ⟨-, hcovers⟩
              omega
            · rw [hoffset k (by omega)]
              exact hout _ (by omega) (by omega) u hu

end LuaAssembly
