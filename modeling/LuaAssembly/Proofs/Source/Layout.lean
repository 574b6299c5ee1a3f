import Mathlib
import LuaAssembly.Proofs.Source.Placement
import LuaAssembly.Proofs.Source.Tiling

/-!
# Layout

Tokens can be laid out in many ways: with more or fewer blanks and comments between them, on one
line or on many.  All of these are read as the same tokens, and so they are assembled into the same
chunk or fail for the same reason.
-/
namespace LuaAssembly

/-- The texts that tokens of the two classes have: words, and literals up to their closing
quote. -/
inductive IsTokenText : TokenKind × Bytes → Prop where
  | word {w : Bytes} (hw : IsWord w) : IsTokenText (.word, w)
  | literal {l : Bytes} (hl : IsLiteral l) : IsTokenText (.string, l)

/-- The text is the tokens with a gap behind each.  Only behind a word that another token follows
there has to be something in the gap. -/
inductive LaidOut : List (TokenKind × Bytes) → Bytes → Prop where
  | nil : LaidOut [] []
  | cons {shape : TokenKind × Bytes} {shapes : List (TokenKind × Bytes)} {gap rest : Bytes}
    (hshape : IsTokenText shape) (hgap : IsGap gap)
    (hword : shape.1 = .word → shapes ≠ [] → gap ≠ []) (hrest : LaidOut shapes rest) :
    LaidOut (shape :: shapes) (shape.2 ++ (gap ++ rest))

/-- The source is the tokens with gaps around them. -/
def IsLayout (shapes : List (TokenKind × Bytes)) (source : Bytes) : Prop :=
  ∃ lead rest, IsGap lead ∧ LaidOut shapes rest ∧ source = lead ++ rest

/-- A gap begins with a byte that ends a word. -/
theorem IsGap.head_eq {gap rest : Bytes} (h : IsGap gap) (hne : gap ≠ []) :
    ∀ b ∈ (gap ++ rest).head?, isBlank b ∨ b = 0x3B := by
  cases h with
  | nil => exact absurd rfl hne
  | blank hb _ => rintro _ ⟨⟩; exact .inl hb
  | comment _ _ => rintro _ ⟨⟩; exact .inr rfl

/-- A token text is a token where another token or nothing follows the gap behind it. -/
theorem IsTokenText.reads {shape : TokenKind × Bytes} {shapes : List (TokenKind × Bytes)}
    {gap rest : Bytes} (h : IsTokenText shape) (hgap : IsGap gap)
    (hword : shape.1 = .word → shapes ≠ [] → gap ≠ []) (hrest : LaidOut shapes rest) :
    shape.1.Reads shape.2 (gap ++ rest) := by
  cases h with
  | literal hl => exact .literal hl
  | word hw =>
    refine .word hw ?_
    by_cases hne : gap = []
    · -- Nothing follows the word.
      obtain rfl : shapes = [] := not_not.1 fun hshapes => hword rfl hshapes hne
      cases hrest
      simp [hne]
    · exact hgap.head_eq hne

/-- Tokens that are laid out tile the text. -/
theorem LaidOut.exists_tiles {shapes : List (TokenKind × Bytes)} {rest lead : Bytes}
    (h : LaidOut shapes rest) (hlead : IsGap lead) (p : Position) :
    ∃ ts, Tiles p (lead ++ rest) ts ∧ ts.map Token.shape = shapes := by
  induction h generalizing lead p with
  | nil =>
    refine ⟨[], .nil ?_, rfl⟩
    rw [List.append_nil]
    exact hlead.append (.blank (by decide) .nil)
  | @cons shape shapes gap rest hshape hgap hword hrest ih =>
    obtain ⟨kind, text⟩ := shape
    have hreads := hshape.reads hgap hword hrest
    obtain ⟨ts, htiles, hts⟩ := ih hgap (text.foldl .advance (lead.foldl .advance p))
    refine ⟨⟨kind, text, lead.foldl .advance p⟩ :: ts, ?_, ?_⟩
    · exact .cons (t := ⟨kind, text, _⟩) hlead rfl hreads htiles
    · rw [List.map_cons, hts]
      rfl

/-- The tokens of a layout are those that are laid out. -/
theorem IsLayout.shapes_tokenize {shapes : List (TokenKind × Bytes)} {source : Bytes}
    (h : IsLayout shapes source) : (tokenize source).map Token.shape = shapes := by
  obtain ⟨lead, rest, hlead, hrest, rfl⟩ := h
  obtain ⟨ts, htiles, hts⟩ := hrest.exists_tiles hlead .start
  rw [tokenize_eq, htiles.tokensFrom_eq, hts]

/-- Layout does not matter: the lexer finds the tokens that are laid out, and two layouts of the
same tokens give the same chunk, or both fail and the failures are the same but for the position. -/
theorem parse_of_isLayout {shapes : List (TokenKind × Bytes)} {source source' : Bytes}
    (h : IsLayout shapes source) (h' : IsLayout shapes source') :
    ((tokenize source).map Token.shape = shapes ∧ (tokenize source').map Token.shape = shapes) ∧
      ((∃ c, parse source = .ok c ∧ parse source' = .ok c) ∨
        ∃ failure failure', parse source = .error failure ∧ parse source' = .error failure' ∧
          failure.bare = failure'.bare) := by
  have hparse := parse_congr (h.shapes_tokenize.trans h'.shapes_tokenize.symm)
  refine ⟨⟨h.shapes_tokenize, h'.shapes_tokenize⟩, ?_⟩
  cases hsource : parse source with
  | ok c =>
    cases hsource' : parse source' with
    | ok c' =>
      rw [hsource, hsource'] at hparse
      cases hparse
      exact .inl ⟨c, rfl, rfl⟩
    | error failure' =>
      rw [hsource, hsource'] at hparse
      cases hparse
  | error failure =>
    cases hsource' : parse source' with
    | ok c' =>
      rw [hsource, hsource'] at hparse
      cases hparse
    | error failure' =>
      rw [hsource, hsource'] at hparse
      exact .inr ⟨failure, failure', rfl, rfl, Except.error.inj hparse⟩

/-- The version, a literal with a semicolon and a quote in it, and a word with a quote in it. -/
def quotedTokens : List (TokenKind × Bytes) :=
  [(.word, utf8 ".version"), (.word, utf8 "5.1"), (.string, utf8 "\"a;\\\"\""), (.word, utf8 "b\"")]

/-- The tokens on one line, the last two without a gap between them. -/
def denseSource : Bytes :=
  utf8 ".version 5.1 \"a;\\\"\"b\""

/-- The tokens on four lines, with quotes and a backslash in the comments. -/
def looseSource : Bytes :=
  utf8 "; \"\n.version;\"\\\n\t5.1\r\n\"a;\\\"\" b\" "

theorem parse_of_isLayout_quotedTokens :
    (IsLayout quotedTokens denseSource ∧ IsLayout quotedTokens looseSource) ∧
      (tokenize denseSource).map Token.shape = quotedTokens ∧
      (tokenize looseSource).map Token.shape = quotedTokens ∧
      ∃ failure failure', parse denseSource = .error failure ∧
        parse looseSource = .error failure' ∧ failure.bare = failure'.bare := by
  have hversion : IsTokenText (.word, utf8 ".version") := .word (by decide +kernel)
  have hnumber : IsTokenText (.word, utf8 "5.1") := .word (by decide +kernel)
  have hliteral : IsTokenText (.string, utf8 "\"a;\\\"\"") := by
    refine .literal ⟨[0x61, 0x3B, 0x5C, 0x22], ?_, by decide +kernel⟩
    exact .plain (by decide) (by decide) (by decide) <|
      .plain (by decide) (by decide) (by decide) <| .escape (by decide) .nil
  have hword : IsTokenText (.word, utf8 "b\"") := .word (by decide +kernel)
  have hspace : IsGap [0x20] := .blank (by decide) .nil
  have hdense : IsLayout quotedTokens denseSource := by
    have htokens := LaidOut.cons hversion hspace (by simp) <| .cons hnumber hspace (by simp) <|
      .cons hliteral .nil (by simp) <| .cons hword .nil (by simp) .nil
    exact ⟨[], _, .nil, htokens, by decide +kernel⟩
  have hloose : IsLayout quotedTokens looseSource := by
    have hlead : IsGap (0x3B :: ([0x20, 0x22] ++ 0x0A :: [])) := .comment (by decide) .nil
    have hcomment : IsGap (0x3B :: ([0x22, 0x5C] ++ 0x0A :: [0x09])) :=
      .comment (by decide) (.blank (by decide) .nil)
    have hline : IsGap [0x0D, 0x0A] := .blank (by decide) (.blank (by decide) .nil)
    have htokens := LaidOut.cons hversion hcomment (by simp) <| .cons hnumber hline (by simp) <|
      .cons hliteral hspace (by simp) <| .cons hword hspace (by simp) .nil
    exact ⟨_, _, hlead, htokens, by decide +kernel⟩
  obtain ⟨⟨hshapes, hshapes'⟩, hparse⟩ := parse_of_isLayout hdense hloose
  refine ⟨⟨hdense, hloose⟩, hshapes, hshapes', hparse.resolve_left ?_⟩
  rintro ⟨c, hc, -⟩
  have hfails : (parse denseSource).toOption = none := by decide +kernel
  rw [hc] at hfails
  cases hfails

end LuaAssembly
