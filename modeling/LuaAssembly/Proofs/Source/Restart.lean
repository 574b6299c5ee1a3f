import Mathlib
import LuaAssembly.Proofs.Source.Lexing
import LuaAssembly.Proofs.Source.Tokens

/-!
# Reading source again from a token

The lexer remembers nothing in front of a token.  If source is read again from the first byte of
one of its tokens, the same tokens come from there on.  And the text of a token, alone in a line,
is this token again.  So tokens can be taken out of source and be laid out in other ways.
-/
namespace LuaAssembly

namespace LexMode

/-- The token that would end here starts in `front`, and reading from its start leads to this mode
without completing any other token. -/
def Begun (front : Bytes) (mode : LexMode) : Prop :=
  ∀ t, mode.finish = some t → ∃ lead, front = lead ++ t.literal ∧
    t.pos = lead.foldl .advance .start ∧
    ∀ rest, tokensFrom t.pos .gap (t.literal ++ rest) =
      tokensFrom (front.foldl .advance .start) mode rest

theorem begun_of_finish_eq_none {mode : LexMode} (h : mode.finish = none) (front : Bytes) :
    mode.Begun front := by
  intro t ht
  rw [h] at ht
  cases ht

/-- A byte between tokens starts a token, or none at all. -/
theorem begun_openWith (front : Bytes) (b : UInt8) :
    (openWith (front.foldl .advance .start) b).Begun (front ++ [b]) := by
  intro t ht
  have hshape : t.literal = [b] ∧ t.pos = front.foldl .advance .start := by
    rw [openWith] at ht
    split_ifs at ht <;> cases ht <;> exact ⟨rfl, rfl⟩
  obtain ⟨hliteral, hpos⟩ := hshape
  refine ⟨front, by rw [hliteral], hpos, fun rest => ?_⟩
  rw [hliteral, hpos, List.foldl_append]
  rfl

/-- A byte that continues a token keeps its start. -/
theorem Begun.push {front : Bytes} {mode mode' : LexMode} (h : mode.Begun front) {b : UInt8}
    (hstep : mode.step (front.foldl .advance .start) b = (none, mode'))
    (hfinish : ∀ t', mode'.finish = some t' → ∃ t, mode.finish = some t ∧
      t'.literal = t.literal ++ [b] ∧ t'.pos = t.pos) : mode'.Begun (front ++ [b]) := by
  intro t' ht'
  obtain ⟨t, ht, hliteral, hpos⟩ := hfinish t' ht'
  obtain ⟨lead, hfront, hstart, hrest⟩ := h t ht
  refine ⟨lead, by rw [hfront, hliteral, List.append_assoc], by rw [hpos, hstart], fun rest => ?_⟩
  rw [hliteral, hpos, List.append_assoc, hrest, List.singleton_append, tokensFrom, hstep,
    List.foldl_append]
  rfl

/-- One byte keeps the start of an unfinished token. -/
theorem Begun.step {front : Bytes} {mode : LexMode} (h : mode.Begun front) (b : UInt8) :
    (mode.step (front.foldl .advance .start) b).2.Begun (front ++ [b]) := by
  cases mode with
  | gap => exact begun_openWith front b
  | comment =>
    refine begun_of_finish_eq_none ?_ _
    simp only [LexMode.step]
    split_ifs <;> rfl
  | word start read =>
    simp only [LexMode.step]
    split_ifs with hend
    · exact begun_openWith front b
    · refine h.push (by simp only [LexMode.step, if_neg hend]) ?_
      rintro t' ⟨⟩
      exact ⟨_, rfl, List.reverse_cons, rfl⟩
  | literal start read escaped =>
    simp only [LexMode.step]
    split_ifs with hline hescaped hquote
    · exact begun_of_finish_eq_none rfl _
    · refine h.push (by simp only [LexMode.step, if_neg hline, if_pos hescaped]) ?_
      rintro t' ⟨⟩
      exact ⟨_, rfl, List.reverse_cons, rfl⟩
    · exact begun_of_finish_eq_none rfl _
    · refine h.push (by simp only [LexMode.step, if_neg hline, if_neg hescaped, if_neg hquote]) ?_
      rintro t' ⟨⟩
      exact ⟨_, rfl, List.reverse_cons, rfl⟩

/-- The token that a byte completes ended in front of the byte, or the byte is its closing quote. -/
theorem of_step_eq_some {p : Position} {b : UInt8} {mode : LexMode} {t : Token}
    (h : (mode.step p b).1 = some t) :
    mode.finish = some t ∨ (mode.step p b).2 = .gap ∧
      ∃ t₀, mode.finish = some t₀ ∧ t.literal = t₀.literal ++ [b] ∧ t.pos = t₀.pos := by
  cases mode with
  | gap => cases h
  | comment => cases h
  | word start read =>
    simp only [LexMode.step] at h
    split_ifs at h
    exact .inl h
  | literal start read escaped =>
    simp only [LexMode.step] at h ⊢
    split_ifs at h ⊢
    · exact .inl h
    · cases h
      exact .inr ⟨rfl, _, rfl, List.reverse_cons, rfl⟩

/-- The end of a line completes the token in front of it. -/
theorem step_newline {mode : LexMode} {t : Token} (h : mode.finish = some t) (p : Position) :
    mode.step p 0x0A = (some t, .gap) := by
  cases mode with
  | gap => cases h
  | comment => cases h
  | word start read => exact congrArg (·, LexMode.gap) h
  | literal start read escaped => exact congrArg (·, LexMode.gap) h

end LexMode

/-- The text of the token, alone in a line, is this token. -/
def Token.StandsAlone (t : Token) : Prop :=
  ∀ rest, ∃ p, tokensFrom t.pos .gap (t.literal ++ 0x0A :: rest) = t :: tokensFrom p .gap rest

/-- The token has its text in the source, at its position.  Read from there on, the source has this
token first, and then the tokens that follow it. -/
def Token.StandsIn (source : Bytes) (t : Token) (after : List Token) : Prop :=
  ∃ lead tail, source = lead ++ (t.literal ++ tail) ∧ t.pos = lead.foldl .advance .start ∧
    tokensFrom t.pos .gap (t.literal ++ tail) = t :: after

namespace LexMode

variable {front rest : Bytes} {mode : LexMode} {t : Token} {after : List Token}

/-- A token that ended in front of the rest. -/
theorem Begun.of_finish (h : mode.Begun front) (ht : mode.finish = some t)
    (htokens : tokensFrom (front.foldl .advance .start) mode rest = t :: after) :
    t.StandsAlone ∧ t.StandsIn (front ++ rest) after := by
  obtain ⟨lead, hfront, hpos, hrest⟩ := h t ht
  refine ⟨fun more => ?_, lead, rest, ?_, hpos, ?_⟩
  · rw [hrest, tokensFrom, step_newline ht]
    exact ⟨_, rfl⟩
  · rw [hfront, List.append_assoc]
  · rw [hrest, htokens]

/-- A token that ends with the first byte of the rest. -/
theorem Begun.of_step (h : mode.Begun front) {b : UInt8}
    (ht : (mode.step (front.foldl .advance .start) b).1 = some t)
    (htokens : tokensFrom (front.foldl .advance .start) mode (b :: rest) = t :: after) :
    t.StandsAlone ∧ t.StandsIn (front ++ b :: rest) after := by
  rcases of_step_eq_some ht with hfinish | ⟨hgap, t₀, hfinish, hliteral, hpos₀⟩
  · exact h.of_finish hfinish htokens
  · obtain ⟨lead, hfront, hpos, hrest⟩ := h t₀ hfinish
    have hreread : ∀ more, tokensFrom t.pos .gap (t.literal ++ more) =
        tokensFrom (front.foldl .advance .start) mode (b :: more) := by
      intro more
      rw [hliteral, hpos₀, List.append_assoc, hrest, List.singleton_append]
    refine ⟨fun more => ?_, lead, rest, ?_, by rw [hpos₀, hpos], ?_⟩
    · rw [hreread, tokensFrom, ht, hgap]
      exact ⟨_, rfl⟩
    · rw [hfront, hliteral, List.append_assoc, List.append_assoc, List.singleton_append]
    · rw [hreread, htokens]

end LexMode

/-- A token that is found in the rest of a source text stands in the text, and it stands alone. -/
theorem tokensFrom_split {front rest : Bytes} {mode : LexMode} {before after : List Token}
    {t : Token} (hmode : mode.Begun front)
    (h : tokensFrom (front.foldl .advance .start) mode rest = before ++ t :: after) :
    t.StandsAlone ∧ t.StandsIn (front ++ rest) after := by
  induction rest generalizing front mode before with
  | nil =>
    have hparts := h
    rw [tokensFrom, ← List.append_nil mode.finish.toList] at hparts
    rcases toList_append_eq hparts with ⟨hfinish, rfl, -⟩ | ⟨before', -, hnil⟩
    · exact hmode.of_finish hfinish h
    · simp at hnil
  | cons b rest ih =>
    have hparts := h
    rw [tokensFrom] at hparts
    rcases toList_append_eq hparts with ⟨hstep, rfl, -⟩ | ⟨before', rfl, hlater⟩
    · exact hmode.of_step hstep h
    · have hagain : t.StandsAlone ∧ t.StandsIn (front ++ [b] ++ rest) after :=
        ih (hmode.step b) (by rwa [List.foldl_append])
      rwa [List.append_assoc] at hagain

theorem tokenize_split {source : Bytes} {before after : List Token} {t : Token}
    (h : tokenize source = before ++ t :: after) :
    t.StandsAlone ∧ t.StandsIn source after := by
  rw [tokenize_eq] at h
  exact tokensFrom_split (LexMode.begun_of_finish_eq_none rfl []) h

/-! ## Positions do not matter -/

/-- The mode without the position at which a token started. -/
def LexMode.bare : LexMode → LexMode
  | .gap => .gap
  | .comment => .comment
  | .word _ read => .word .none read
  | .literal _ read escaped => .literal .none read escaped

namespace LexMode

theorem bare_openWith (p q : Position) (b : UInt8) :
    (openWith p b).bare = (openWith q b).bare := by
  rw [openWith, openWith]
  split_ifs <;> rfl

theorem shape_finish {mode mode' : LexMode} (h : mode.bare = mode'.bare) :
    mode.finish.map Token.shape = mode'.finish.map Token.shape := by
  cases mode <;> cases mode' <;> cases h <;> rfl

/-- What a byte does depends neither on where it stands nor on where a token started. -/
theorem shape_step {mode mode' : LexMode} (h : mode.bare = mode'.bare) (p q : Position)
    (b : UInt8) :
    (mode.step p b).1.map Token.shape = (mode'.step q b).1.map Token.shape ∧
      (mode.step p b).2.bare = (mode'.step q b).2.bare := by
  cases mode with
  | gap =>
    cases mode' <;> cases h
    exact ⟨rfl, bare_openWith p q b⟩
  | comment =>
    cases mode' <;> cases h
    exact ⟨rfl, rfl⟩
  | word start read =>
    cases mode' <;> cases h
    simp only [step]
    split_ifs
    · exact ⟨rfl, bare_openWith p q b⟩
    · exact ⟨rfl, rfl⟩
  | literal start read escaped =>
    cases mode' <;> cases h
    simp only [step]
    split_ifs <;> exact ⟨rfl, rfl⟩

end LexMode

theorem shapes_tokensFrom {mode mode' : LexMode} (h : mode.bare = mode'.bare) (p q : Position)
    (bs : Bytes) :
    (tokensFrom p mode bs).map Token.shape = (tokensFrom q mode' bs).map Token.shape := by
  have htoList : ∀ o : Option Token, o.toList.map Token.shape = (o.map Token.shape).toList := by
    rintro (- | t) <;> rfl
  induction bs generalizing p q mode mode' with
  | nil => rw [tokensFrom, tokensFrom, htoList, htoList, LexMode.shape_finish h]
  | cons b bs ih =>
    obtain ⟨htoken, hmode⟩ := LexMode.shape_step h p q b
    rw [tokensFrom, tokensFrom, List.map_append, List.map_append, htoList, htoList, htoken,
      ih hmode]

/-- Source cut off in front of one of its tokens has this token and those behind it. -/
theorem shapes_tokenize_drop {source : Bytes} {before after : List Token} {t : Token}
    (h : tokenize source = before ++ t :: after) :
    (tokenize (source.drop t.pos.offset.toNat)).map Token.shape = (t :: after).map Token.shape := by
  obtain ⟨-, lead, tail, rfl, hpos, htokens⟩ := tokenize_split h
  have hoffset : t.pos.offset.toNat = lead.length := by
    rw [hpos, Position.offset_foldl_advance]
    simp [Position.start]
  rw [hoffset, List.drop_left, tokenize_eq, ← htokens]
  exact shapes_tokensFrom rfl _ _ _

/-! ## Tokens laid out in lines -/

/-- Source with every token in a line of its own. -/
def laidOut (ts : List Token) : Bytes :=
  ts.flatMap fun t => t.literal ++ [0x0A]

/-- Tokens of source that are laid out in any order are the tokens of the new source. -/
theorem shapes_tokenize_laidOut {ts : List Token} (h : ∀ t ∈ ts, t.StandsAlone) :
    (tokenize (laidOut ts)).map Token.shape = ts.map Token.shape := by
  have hfrom : ∀ p, (tokensFrom p .gap (laidOut ts)).map Token.shape = ts.map Token.shape := by
    induction ts with
    | nil => exact fun p => rfl
    | cons t ts ih =>
      rw [List.forall_mem_cons] at h
      intro p
      obtain ⟨q, hq⟩ := h.1 (laidOut ts)
      have hline : laidOut (t :: ts) = t.literal ++ 0x0A :: laidOut ts := by
        simp [laidOut]
      rw [hline, shapes_tokensFrom rfl p t.pos, hq, List.map_cons, ih h.2, List.map_cons]
  rw [tokenize_eq]
  exact hfrom _

end LuaAssembly
