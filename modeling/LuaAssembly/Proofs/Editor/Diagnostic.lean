import Mathlib
import LuaAssembly.Editor.Diagnostic
import LuaAssembly.Proofs.Source.Blame
import LuaAssembly.Proofs.Source.Numbered
import LuaAssembly.Proofs.Source.Restart

/-!
# Diagnostics point at the token at fault

A failure carries the position of a token and not the token.  The range to show is found by reading
the text again from that position, with a lexer that knows nothing of what comes before.  It finds
the token that the assembler failed at, because the lexer can start at every token.
-/
namespace LuaAssembly

theorem Position.one_le_column_foldl_advance {p : Position} (hp : 1 ≤ p.column) (bs : Bytes) :
    1 ≤ (bs.foldl advance p).column := by
  induction bs generalizing p with
  | nil => exact hp
  | cons b bs ih =>
    refine ih ?_
    rw [advance]
    split_ifs
    · exact le_rfl
    · exact hp.trans (Int.le_add_one le_rfl)

namespace Editor

/-- The range is that of the token and lies in one line.  The token lies inside the text, and the
text has it there, both as bytes and when it is read again from there on. -/
structure Range.Marks (text : Bytes) (t : Token) (r : Range) : Prop where
  range : r = .ofToken t
  inside : 0 ≤ t.pos.offset ∧ t.pos.offset + t.literal.length ≤ text.length
  line : r.last = ⟨r.first.line, r.first.column + t.literal.length⟩
  literal : (text.drop t.pos.offset.toNat).take t.literal.length = t.literal
  again : ∃ t' after, tokenize (text.drop t.pos.offset.toNat) = t' :: after ∧ t'.shape = t.shape

namespace Diagnostic

variable {text : Bytes} {before after : List Token} {t : Token}

/-- The range at the position of a token is the range of the token. -/
theorem marks_rangeAt (h : tokenize text = before ++ t :: after) :
    (rangeAt text t.pos).Marks text t := by
  obtain ⟨-, lead, tail, htext, hpos, -⟩ := tokenize_split h
  have hmem : t ∈ tokenize text := by simp [h]
  have hvalid := isValid_of_mem_tokenize hmem
  have hlead : t.pos.offset = lead.length := by
    rw [hpos, Position.offset_foldl_advance]
    simp [Position.start]
  have hoffset : t.pos.offset.toNat = lead.length := by
    rw [hlead, Int.toNat_natCast]
  have hcolumn : 1 ≤ t.pos.column := by
    rw [hpos]
    exact Position.one_le_column_foldl_advance le_rfl lead
  -- The first token that is read again has the text of the token.
  obtain ⟨t', after', hagain, hshape⟩ : ∃ t' after',
      tokenize (text.drop t.pos.offset.toNat) = t' :: after' ∧ t'.shape = t.shape := by
    obtain ⟨t', after', hagain, hshape, -⟩ := List.map_eq_cons_iff.1 (shapes_tokenize_drop h)
    exact ⟨t', after', hagain, hshape⟩
  have hliteral : t'.literal = t.literal := congrArg Prod.snd hshape
  have hrange : rangeAt text t.pos = .ofToken t := by
    rw [rangeAt, if_pos hvalid, hagain]
    simp only [hliteral]
    rfl
  refine ⟨hrange, ⟨hlead ▸ Int.natCast_nonneg _, ?_⟩, ?_, ?_, t', after', hagain, hshape⟩
  · rw [hlead, htext]
    simp only [List.length_append, Nat.cast_add]
    omega
  · rw [hrange]
    simp only [Range.ofToken, Range.between, Place.ofPosition, Token.stop, Position.shift,
      Place.mk.injEq, true_and]
    omega
  · rw [hoffset, htext, List.drop_left, List.take_left]

theorem rangeAt_stop (text : Bytes) :
    rangeAt text (lex text).stop = .between (lex text).stop (lex text).stop := by
  have hoffset : (lex text).stop.offset.toNat = text.length := by
    rw [lex_stop, Position.offset_foldl_advance]
    simp [Position.start]
  rw [rangeAt, if_pos (isValid_lex_stop text), hoffset, List.drop_length]
  rfl

theorem rangeAt_none (text : Bytes) : rangeAt text .none = .zero :=
  rfl

theorem range_ofFailure (text : Bytes) (failure : Failure) :
    (ofFailure text failure).range = rangeAt text failure.pos := by
  cases failure <;> rfl

end Diagnostic

theorem diagnose?_of_parse_eq_error {text : Bytes} {failure : Failure}
    (h : parse text = .error failure) :
    diagnose? text = some (.ofFailure text failure) := by
  rw [diagnose?, h]

/-- What is diagnosed in a text.  The assembler gets to no site in it, so what it raises, if
anything, is a fault.  There is nothing to say exactly when the text is assembled.  Otherwise there
is one diagnostic.  If the assembler failed at a token, the range is the one of this token, which is
also what is read again at the position of the failure.  If the text ends inside a statement, the
range is empty and stands at the end.  A failure without a position is shown with the empty range at
the start. -/
theorem diagnose?_spec (text : Bytes) :
    Numbered.parse text = .ok (parse text) ∧
      (diagnose? text = none ↔ ∃ c, parse text = .ok c) ∧
      ∀ failure, parse text = .error failure → ∃ diagnostic, diagnose? text = some diagnostic ∧
        ((∃ before t after, tokenize text = before ++ t :: after ∧
            (∀ f, before.foldl Assembly.feed Assembly.start ≠ .fail f) ∧
            (before ++ [t]).foldl Assembly.feed Assembly.start = .fail failure ∧
            failure.pos = t.pos ∧ diagnostic.range.Marks text t) ∨
          (failure = .error ⟨(lex text).stop, .unexpectedEnd⟩ ∧
            (lex text).stop.offset = text.length ∧
            diagnostic.range = .between (lex text).stop (lex text).stop) ∨
          (failure.pos = .none ∧ diagnostic.range = .zero)) := by
  refine ⟨Numbered.parse_eq text, ?_, ?_⟩
  · rw [diagnose?]
    cases hparse : parse text <;> simp
  · intro failure h
    refine ⟨_, diagnose?_of_parse_eq_error h, ?_⟩
    rw [Diagnostic.range_ofFailure]
    rcases parse_failure_cases h with ⟨before, t, after, htokens, hbefore, hfail, hpos⟩ |
      ⟨resume, -, rfl⟩ | ⟨d, cause, -, -, rfl⟩
    · refine .inl ⟨before, t, after, htokens, hbefore, hfail, hpos, ?_⟩
      rw [hpos]
      exact Diagnostic.marks_rangeAt htokens
    · refine .inr (.inl ⟨rfl, ?_, Diagnostic.rangeAt_stop text⟩)
      rw [lex_stop, Position.offset_foldl_advance]
      simp [Position.start]
    · exact .inr (.inr ⟨rfl, Diagnostic.rangeAt_none text⟩)

/-- The literal that is not closed is marked up to the end of its line. -/
theorem diagnose?_spec_unclosedSource :
    ∃ diagnostic, diagnose? unclosedSource = some diagnostic ∧
      diagnostic.range = ⟨⟨2, 8⟩, ⟨2, 19⟩⟩ ∧
      ∃ t ∈ tokenize unclosedSource, diagnostic.range.Marks unclosedSource t := by
  have hparse : parse unclosedSource =
      .error (.error ⟨⟨43, 3, 9⟩, .literal (utf8 "\"@a.lua ; b") .notQuoted⟩) := by decide +kernel
  have hrange : (diagnose? unclosedSource).map Diagnostic.range = some ⟨⟨2, 8⟩, ⟨2, 19⟩⟩ := by
    decide +kernel
  obtain ⟨-, -, hfailure⟩ := diagnose?_spec unclosedSource
  obtain ⟨diagnostic, hdiagnose, hcases⟩ := hfailure _ hparse
  rw [hdiagnose] at hrange
  refine ⟨diagnostic, hdiagnose, Option.some.inj hrange, ?_⟩
  rcases hcases with ⟨before, t, after, htokens, -, -, -, hmarks⟩ | ⟨heq, -⟩ | ⟨heq, -⟩
  · exact ⟨t, by simp [htokens], hmarks⟩
  · cases heq
  · cases heq

end Editor

end LuaAssembly
