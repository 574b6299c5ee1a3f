import Mathlib
import LuaAssembly.Proofs.Source.Tiling

/-!
# Reading one token at a time

The lexer goes through the source byte by byte.  A cursor goes through it token by token: each call
of `next` takes off a gap and the token behind it.  What is taken off tiles the source, so every
source is tiled, the calls give the tokens that the lexer finds, and behind the last one they give
the end of the source for ever.

The main statement is that the tokens lie where they say, one behind the other, and that nothing
lies outside of them but blanks and comments.
-/
namespace LuaAssembly

/-! ## Cutting -/

/-- One more byte in front of the first part. -/
def Bytes.push (b : UInt8) (cut : Bytes × Bytes) : Bytes × Bytes :=
  (b :: cut.1, cut.2)

/-- The gap that a text starts with, and the rest; `comment` inside a comment. -/
def Bytes.cutGap (comment : Bool) : Bytes → Bytes × Bytes
  | [] => ([], [])
  | b :: bs =>
    if comment then push b (cutGap (b ≠ 0x0A) bs)
    else if isBlank b then push b (cutGap false bs)
    else if b = 0x3B then push b (cutGap true bs)
    else ([], b :: bs)

/-- The rest of a literal behind its opening quote, and what follows it. -/
def Bytes.cutLiteral : Bytes → Bytes × Bytes
  | [] => ([], [])
  | b :: bs =>
    if b = 0x0A then ([], b :: bs)
    else if b = 0x22 then ([b], bs)
    else if b = 0x5C then
      match bs with
      | [] => ([b], [])
      | e :: bs => if e = 0x0A then ([b], e :: bs) else push b (push e (cutLiteral bs))
    else push b (cutLiteral bs)

/-- The byte does not end a word. -/
def isWordByte (b : UInt8) : Bool :=
  !(isBlank b || b = 0x3B)

/-- The class and the text of the token that a text starts with, and the rest. -/
def Bytes.cutToken : Bytes → TokenKind × Bytes × Bytes
  | [] => (.eof, [], [])
  | b :: bs =>
    if b = 0x22 then (.string, push b (cutLiteral bs))
    else (.word, (b :: bs).takeWhile isWordByte, (b :: bs).dropWhile isWordByte)

namespace Bytes

theorem cutGap_append (comment : Bool) (bs : Bytes) :
    (cutGap comment bs).1 ++ (cutGap comment bs).2 = bs := by
  induction bs generalizing comment with
  | nil => rfl
  | cons b bs ih =>
    rw [cutGap]
    split_ifs
    · exact congrArg (b :: ·) (ih _)
    · exact congrArg (b :: ·) (ih _)
    · exact congrArg (b :: ·) (ih _)
    · rfl

/-- A gap is cut off as a whole. -/
theorem isWordByte_of_cutGap (comment : Bool) (bs : Bytes) :
    ∀ b ∈ (cutGap comment bs).2.head?, isWordByte b := by
  induction bs generalizing comment with
  | nil => simp [cutGap]
  | cons b bs ih =>
    rw [cutGap]
    split_ifs with _ hblank hsemicolon
    · exact ih _
    · exact ih _
    · exact ih _
    · simp [isWordByte, hblank, hsemicolon]

/-- What is cut off is a gap, unless it goes up to the end of the source; then it is one together
with the end of its line.  Inside a comment, this is said of the whole comment. -/
theorem isGap_cutGap (bs : Bytes) :
    (IsGap ((cutGap false bs).1 ++ [0x0A]) ∧
      ((cutGap false bs).2 ≠ [] → IsGap (cutGap false bs).1)) ∧
    ∀ body : Bytes, 0x0A ∉ body →
      IsGap (0x3B :: (body ++ (cutGap true bs).1) ++ [0x0A]) ∧
        ((cutGap true bs).2 ≠ [] → IsGap (0x3B :: (body ++ (cutGap true bs).1))) := by
  have hline : IsGap [0x0A] := .blank (by decide) .nil
  induction bs with
  | nil =>
    refine ⟨⟨hline, fun h => absurd rfl h⟩, fun body hbody => ⟨?_, fun h => absurd rfl h⟩⟩
    simpa [cutGap] using IsGap.comment hbody .nil
  | cons b bs ih =>
    obtain ⟨⟨hgap, hgap'⟩, hcomment⟩ := ih
    constructor
    · rw [cutGap, if_neg Bool.false_ne_true]
      split_ifs with hblank hsemicolon
      · exact ⟨.blank hblank hgap, fun h => .blank hblank (hgap' h)⟩
      · subst hsemicolon
        exact hcomment [] (by simp)
      · exact ⟨hline, fun _ => .nil⟩
    · intro body hbody
      rw [cutGap, if_pos rfl]
      by_cases hb : b = 0x0A
      · subst hb
        refine ⟨?_, fun h => IsGap.comment hbody (hgap' h)⟩
        simpa [push] using IsGap.comment hbody hgap
      · have hmore : 0x0A ∉ body ++ [b] := by simp [hbody, Ne.symm hb]
        simpa [push, hb] using hcomment (body ++ [b]) hmore

theorem cutLiteral_append (bs : Bytes) : (cutLiteral bs).1 ++ (cutLiteral bs).2 = bs := by
  fun_induction cutLiteral bs with
  | case1 => rfl
  | case2 => rfl
  | case3 => rfl
  | case4 => rfl
  | case5 => rfl
  | case6 e bs _ _ _ ih => exact congrArg (fun bs => _ :: e :: bs) ih
  | case7 b bs _ _ _ ih => exact congrArg (b :: ·) ih

/-- A literal is cut off behind its closing quote, or where its line ends. -/
theorem cutLiteral_spec (bs : Bytes) :
    (∃ inside, IsInside inside ∧ (cutLiteral bs).1 = inside ++ [0x22]) ∨
      (∃ inside slash, IsInside inside ∧ (slash = [] ∨ slash = [0x5C]) ∧
        (cutLiteral bs).1 = inside ++ slash) ∧ ∀ b ∈ (cutLiteral bs).2.head?, b = 0x0A := by
  fun_induction cutLiteral bs with
  | case1 => exact .inr ⟨⟨[], [], .nil, .inl rfl, rfl⟩, by simp⟩
  | case2 => exact .inr ⟨⟨[], [], .nil, .inl rfl, rfl⟩, by simp⟩
  | case3 => exact .inl ⟨[], .nil, rfl⟩
  | case4 => exact .inr ⟨⟨[], [0x5C], .nil, .inr rfl, rfl⟩, by simp⟩
  | case5 => exact .inr ⟨⟨[], [0x5C], .nil, .inr rfl, rfl⟩, by simp⟩
  | case6 e bs he _ _ ih =>
    refine ih.imp ?_ (And.imp_left ?_)
    · rintro ⟨inside, hinside, heq⟩
      exact ⟨_, .escape he hinside, congrArg (fun bs => _ :: e :: bs) heq⟩
    · rintro ⟨inside, slash, hinside, hslash, heq⟩
      exact ⟨_, slash, .escape he hinside, hslash, congrArg (fun bs => _ :: e :: bs) heq⟩
  | case7 b bs hline hquote hslash ih =>
    refine ih.imp ?_ (And.imp_left ?_)
    · rintro ⟨inside, hinside, heq⟩
      exact ⟨_, .plain hline hquote hslash hinside, congrArg (b :: ·) heq⟩
    · rintro ⟨inside, slash, hinside, hends, heq⟩
      exact ⟨_, slash, .plain hline hquote hslash hinside, hends, congrArg (b :: ·) heq⟩

theorem cutToken_append (bs : Bytes) : (cutToken bs).2.1 ++ (cutToken bs).2.2 = bs := by
  cases bs with
  | nil => rfl
  | cons b bs =>
    rw [cutToken]
    split_ifs
    · exact congrArg (b :: ·) (cutLiteral_append bs)
    · exact List.takeWhile_append_dropWhile

/-- What is cut off behind a gap is a token. -/
theorem reads_cutToken {bs : Bytes} (hne : bs ≠ []) (hbs : ∀ b ∈ bs.head?, isWordByte b) :
    (cutToken bs).1.Reads (cutToken bs).2.1 (cutToken bs).2.2 := by
  obtain ⟨b, bs, rfl⟩ := List.exists_cons_of_ne_nil hne
  have hb : isWordByte b := hbs b rfl
  rw [cutToken]
  split_ifs with hquote
  · subst hquote
    rcases cutLiteral_spec bs with
      ⟨inside, hinside, heq⟩ | ⟨⟨inside, slash, hinside, hslash, heq⟩, hend⟩
    · exact .literal ⟨inside, hinside, congrArg (_ :: ·) heq⟩
    · exact .unclosed ⟨inside, slash, hinside, hslash, congrArg (_ :: ·) heq⟩ hend
  · refine .word ⟨?_, ?_, ?_⟩ ?_
    · simp [hb]
    · simp [hb, hquote]
    · intro c hc
      simpa [isWordByte] using List.mem_takeWhile_imp hc
    · intro c hc
      have hend := List.head?_dropWhile_not isWordByte (b :: bs)
      rw [Option.mem_def.1 hc] at hend
      simpa only [isWordByte, Bool.not_eq_false', Bool.or_eq_true, decide_eq_true_eq] using hend

end Bytes

/-! ## Cursors -/

/-- A place in source from which tokens are read. -/
structure TokenCursor where
  pos : Position
  rest : Bytes

namespace TokenCursor

/-- The cursor in front of a source text. -/
def start (source : Bytes) : TokenCursor :=
  ⟨.start, source⟩

/-- The next token, and the cursor behind it. -/
def next (c : TokenCursor) : Token × TokenCursor :=
  let (gap, rest) := Bytes.cutGap false c.rest
  let pos := gap.foldl .advance c.pos
  let (kind, text, rest) := Bytes.cutToken rest
  (⟨kind, text, pos⟩, ⟨text.foldl .advance pos, rest⟩)

/-- What the call gives that comes after `n` others. -/
def call (c : TokenCursor) : Nat → Token
  | 0 => c.next.1
  | n + 1 => c.next.2.call n

/-- The position of the end of the source. -/
def stop (c : TokenCursor) : Position :=
  c.rest.foldl .advance c.pos

variable (c : TokenCursor)

/-- A call that finds no token gives the end of the source.  Any other takes off a gap and a token,
so the token and those that tile the rest tile the source. -/
theorem next_cases :
    (c.next = (⟨.eof, [], c.stop⟩, ⟨c.stop, []⟩) ∧ Tiles c.pos c.rest []) ∨
      (c.next.2.rest.length < c.rest.length ∧ c.next.2.stop = c.stop ∧
        ∀ ts, Tiles c.next.2.pos c.next.2.rest ts → Tiles c.pos c.rest (c.next.1 :: ts)) := by
  have hcut := Bytes.cutGap_append false c.rest
  have hbyte := Bytes.isWordByte_of_cutGap false c.rest
  obtain ⟨⟨hlast, hgap⟩, -⟩ := Bytes.isGap_cutGap c.rest
  rw [next, stop]
  generalize Bytes.cutGap false c.rest = cut at hcut hbyte hlast hgap ⊢
  obtain ⟨gap, rest⟩ := cut
  dsimp only at hcut hbyte hlast hgap ⊢
  by_cases hrest : rest = []
  · subst hrest
    rw [List.append_nil] at hcut
    subst hcut
    exact .inl ⟨rfl, .nil hlast⟩
  · have happend := Bytes.cutToken_append rest
    have hreads := Bytes.reads_cutToken hrest hbyte
    generalize Bytes.cutToken rest = cut at happend hreads ⊢
    obtain ⟨kind, text, tail⟩ := cut
    dsimp only at happend hreads ⊢
    rw [← hcut, ← happend]
    have hlength := List.length_pos_iff.2 hreads.ne_nil
    refine .inr ⟨?_, ?_, fun ts hts =>
      .cons (t := ⟨kind, text, _⟩) (hgap hrest) rfl hreads hts⟩
    · simp only [List.length_append]
      omega
    · simp only [stop, List.foldl_append]

/-- Every source is tiled. -/
theorem exists_tiles : ∃ ts, Tiles c.pos c.rest ts := by
  -- Each call that finds a token leaves a shorter rest.
  induction hlength : c.rest.length using Nat.strong_induction_on generalizing c with
  | _ n ih =>
    rcases c.next_cases with ⟨-, htiles⟩ | ⟨hlt, -, htiles⟩
    · exact ⟨[], htiles⟩
    · obtain ⟨ts, hts⟩ := ih _ (hlength ▸ hlt) c.next.2 rfl
      exact ⟨c.next.1 :: ts, htiles ts hts⟩

/-- Each call takes off the first of the tokens that the lexer finds. -/
theorem next_eq :
    (tokensFrom c.pos .gap c.rest = [] ∧ c.next = (⟨.eof, [], c.stop⟩, ⟨c.stop, []⟩)) ∨
      (tokensFrom c.pos .gap c.rest = c.next.1 :: tokensFrom c.next.2.pos .gap c.next.2.rest ∧
        c.next.2.stop = c.stop) := by
  rcases c.next_cases with ⟨heq, htiles⟩ | ⟨-, hstop, htiles⟩
  · exact .inl ⟨htiles.tokensFrom_eq, heq⟩
  · obtain ⟨ts, hts⟩ := c.next.2.exists_tiles
    refine .inr ⟨?_, hstop⟩
    rw [(htiles ts hts).tokensFrom_eq, hts.tokensFrom_eq]

/-- The calls give the tokens that the lexer finds, and then the end. -/
theorem call_eq (n : Nat) :
    c.call n = (tokensFrom c.pos .gap c.rest)[n]?.getD ⟨.eof, [], c.stop⟩ := by
  induction n generalizing c with
  | zero =>
    rcases c.next_eq with ⟨htokens, heq⟩ | ⟨htokens, -⟩
    · rw [htokens, call, heq]
      rfl
    · rw [htokens]
      rfl
  | succ n ih =>
    rw [call, ih]
    rcases c.next_eq with ⟨htokens, heq⟩ | ⟨htokens, hstop⟩
    · rw [htokens, heq]
      rfl
    · rw [htokens, hstop, List.getElem?_cons_succ]

end TokenCursor

theorem tiles_tokenize (source : Bytes) : Tiles .start source (tokenize source) := by
  obtain ⟨ts, hts⟩ := (TokenCursor.start source).exists_tiles
  rw [tokenize_eq]
  exact hts.tokensFrom_eq.symm ▸ hts

/-- Where tokens lie.  Each is a piece of the source, not empty and within one line, and it starts
and stops where it says.  They follow one another without overlap.  A byte outside of them is a
blank or belongs to a comment, which runs from a semicolon to the end of its line and has no token
in it.  Calls for the next token give them in order, and then the end of the source, at every
further call. -/
theorem tokenize_tiling (source : Bytes) :
    (∀ t ∈ tokenize source, t.PlacedIn source) ∧
      ((tokenize source).Pairwise fun t u =>
        t.pos.offset < u.pos.offset ∧ t.stop.offset ≤ u.pos.offset) ∧
      (∀ (i : Nat) (b : UInt8), source[i]? = some b →
        (∃ t ∈ tokenize source, t.Covers i) ∨ isBlank b ∨
          ∃ j e, IsComment source j e ∧ j ≤ i ∧ i < e ∧
            ∀ k : Nat, j ≤ k → k < e → ∀ t ∈ tokenize source, ¬t.Covers k) ∧
      ∀ n, (TokenCursor.start source).call n =
        (tokenize source)[n]?.getD ⟨.eof, [], .behind source⟩ := by
  have htiles := tiles_tokenize source
  refine ⟨fun t ht => htiles.placedIn ht, htiles.pairwise, fun i b hi => ?_, fun n => ?_⟩
  · simpa [Position.start] using htiles.blank_or_comment hi
  · rw [TokenCursor.call_eq, tokenize_eq, TokenCursor.stop, TokenCursor.start,
      Position.foldl_advance_start]

end LuaAssembly
