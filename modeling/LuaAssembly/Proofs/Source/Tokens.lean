import Mathlib
import LuaAssembly.Source.Token

/-!
# Where tokens end

The lexer carries the tokens found so far along.  `tokensFrom` are those that are still to come; it
depends on the mode and on the rest of the source alone.  A token is complete where it ends: if the
source is cut there, and nothing or a new line follows, the same tokens are read up to this one.
-/
namespace LuaAssembly

/-! ## Positions -/

namespace Position

@[simp] theorem advance_offset (p : Position) (b : UInt8) :
    (p.advance b).offset = p.offset + 1 := by
  rw [advance]
  split_ifs <;> rfl

theorem line_le_advance (p : Position) (b : UInt8) : p.line ≤ (p.advance b).line := by
  rw [advance]
  split_ifs <;> simp

theorem advance_eq_shift (p : Position) {b : UInt8} (hb : b ≠ 0x0A) : p.advance b = p.shift 1 := by
  rw [advance, if_neg hb]
  rfl

theorem shift_succ (p : Position) (n : Nat) : p.shift (n + 1) = (p.shift n).shift 1 := by
  simp only [shift, mk.injEq, true_and]
  constructor <;> push_cast <;> ring

theorem offset_foldl_advance (p : Position) (bs : Bytes) :
    (bs.foldl advance p).offset = p.offset + bs.length := by
  induction bs generalizing p with
  | nil => simp
  | cons b bs ih =>
    rw [List.foldl_cons, ih, advance_offset, List.length_cons]
    push_cast
    ring

theorem line_le_foldl_advance (p : Position) (bs : Bytes) :
    p.line ≤ (bs.foldl advance p).line := by
  induction bs generalizing p with
  | nil => exact le_rfl
  | cons b bs ih => exact (p.line_le_advance b).trans (ih _)

end Position

/-! ## Tokens to come -/

/-- The tokens that the mode and the rest of the source make, from position `p` on. -/
def tokensFrom (p : Position) (mode : LexMode) : Bytes → List Token
  | [] => mode.finish.toList
  | b :: rest => (mode.step p b).1.toList ++ tokensFrom (p.advance b) (mode.step p b).2 rest

theorem lexFrom_eq (p : Position) (mode : LexMode) (done : List Token) (bs : Bytes) :
    lexFrom p mode done bs = ⟨done.reverse ++ tokensFrom p mode bs, bs.foldl .advance p⟩ := by
  have hreverse : ∀ o : Option Token, o.toList.reverse = o.toList := by
    rintro (- | t) <;> rfl
  induction bs generalizing p mode done with
  | nil => simp [lexFrom, tokensFrom, hreverse]
  | cons b bs ih => simp [lexFrom, tokensFrom, ih, hreverse]

theorem tokenize_eq (source : Bytes) : tokenize source = tokensFrom .start .gap source := by
  simp [tokenize, lex, lexFrom_eq]

theorem lex_stop (source : Bytes) : (lex source).stop = source.foldl .advance .start := by
  rw [lex, lexFrom_eq]

namespace LexMode

/-- The bytes of an unfinished token reach up to the position. -/
def Tracks (p : Position) : LexMode → Prop
  | .gap | .comment => True
  | .word start read | .literal start read _ => start.shift read.length = p

theorem tracks_gap (p : Position) : LexMode.gap.Tracks p :=
  trivial

theorem tracks_openWith (p : Position) (b : UInt8) : (openWith p b).Tracks (p.advance b) := by
  rw [openWith]
  split_ifs with hblank hsemicolon hquote
  · trivial
  · trivial
  · subst hquote
    rfl
  · have hb : b ≠ 0x0A := by
      rintro rfl
      exact hblank (by decide)
    exact (p.advance_eq_shift hb).symm

theorem Tracks.cons {p start : Position} {read : Bytes} {b : UInt8}
    (h : start.shift read.length = p) (hb : b ≠ 0x0A) :
    start.shift (b :: read).length = p.advance b := by
  rw [List.length_cons, Position.shift_succ, h, p.advance_eq_shift hb]

/-- One byte keeps the bytes of an unfinished token in step with the position. -/
theorem Tracks.step {p : Position} {mode : LexMode} (h : mode.Tracks p) (b : UInt8) :
    (mode.step p b).2.Tracks (p.advance b) := by
  cases mode with
  | gap => exact tracks_openWith p b
  | comment =>
    simp only [LexMode.step]
    split_ifs <;> trivial
  | word start read =>
    simp only [LexMode.step]
    split_ifs with hend
    · exact tracks_openWith p b
    · refine Tracks.cons h ?_
      rintro rfl
      exact hend (by decide)
  | literal start read escaped =>
    simp only [LexMode.step]
    split_ifs with hline
    · trivial
    · exact Tracks.cons h hline
    · trivial
    · exact Tracks.cons h hline

theorem Tracks.stop_of_finish {p : Position} {mode : LexMode} (h : mode.Tracks p) {t : Token}
    (ht : mode.finish = some t) : t.stop = p := by
  cases mode with
  | gap => cases ht
  | comment => cases ht
  | word start read =>
    cases ht
    simpa [Token.stop, Tracks] using h
  | literal start read escaped =>
    cases ht
    simpa [Token.stop, Tracks] using h

/-- A byte completes the token that ends in front of it, or is the last byte of the token. -/
theorem Tracks.stop_of_step {p : Position} {mode : LexMode} (h : mode.Tracks p) {b : UInt8}
    {t : Token} (ht : (mode.step p b).1 = some t) :
    mode.finish = some t ∨ t.stop = p.advance b := by
  cases mode with
  | gap => cases ht
  | comment => cases ht
  | word start read =>
    simp only [LexMode.step] at ht
    split_ifs at ht
    exact .inl ht
  | literal start read escaped =>
    simp only [LexMode.step] at ht
    split_ifs at ht with hline
    · exact .inl ht
    · -- the closing quote
      refine .inr ?_
      cases ht
      simpa [Token.stop] using Tracks.cons h hline

/-- A token that could end here does end here when nothing or a new line follows. -/
theorem tokensFrom_of_finish {mode : LexMode} {t : Token} (ht : mode.finish = some t)
    (p : Position) {more : Bytes} (hmore : ∀ b ∈ more.head?, b = 0x0A) :
    ∃ after, tokensFrom p mode more = t :: after := by
  cases more with
  | nil => exact ⟨[], by rw [tokensFrom, ht]; rfl⟩
  | cons b more =>
    obtain rfl : b = 0x0A := hmore b rfl
    have hstep : (mode.step p 0x0A).1 = some t := by
      cases mode with
      | gap => cases ht
      | comment => cases ht
      | word start read => exact ht
      | literal start read escaped => exact ht
    exact ⟨_, by rw [tokensFrom, hstep]; rfl⟩

end LexMode

/-! ## Source that is cut behind a token -/

/-- A token among those of the first byte and of the rest is that of the first byte, or it is one
of the rest. -/
theorem toList_append_eq {o : Option Token} {rest before after : List Token} {t : Token}
    (h : o.toList ++ rest = before ++ t :: after) :
    (o = some t ∧ before = [] ∧ rest = after) ∨
      ∃ before', before = o.toList ++ before' ∧ rest = before' ++ t :: after := by
  cases o with
  | none => exact .inr ⟨before, rfl, h⟩
  | some t' =>
    rw [Option.toList_some, List.singleton_append, List.cons_eq_append_iff] at h
    rcases h with ⟨rfl, h⟩ | ⟨before', rfl, h⟩
    · obtain ⟨rfl, rfl⟩ := List.cons.inj h
      exact .inl ⟨rfl, rfl, rfl⟩
    · exact .inr ⟨before', rfl, h⟩

/-- A token ends at some byte of the rest.  If the rest is cut there, the same tokens come up to
this one. -/
theorem tokensFrom_take {p : Position} {mode : LexMode} {rest : Bytes} {before after : List Token}
    {t : Token} (hmode : mode.Tracks p) (h : tokensFrom p mode rest = before ++ t :: after) :
    ∃ n ≤ rest.length, t.stop = (rest.take n).foldl .advance p ∧
      ∀ more : Bytes, (∀ b ∈ more.head?, b = 0x0A) →
        ∃ after', tokensFrom p mode (rest.take n ++ more) = before ++ t :: after' := by
  induction rest generalizing p mode before with
  | nil =>
    rw [tokensFrom, ← List.append_nil mode.finish.toList] at h
    rcases toList_append_eq h with ⟨hfinish, rfl, -⟩ | ⟨before', -, hnil⟩
    · exact ⟨0, le_rfl, hmode.stop_of_finish hfinish, fun more hmore =>
        LexMode.tokensFrom_of_finish hfinish p hmore⟩
    · simp at hnil
  | cons b rest ih =>
    rw [tokensFrom] at h
    rcases toList_append_eq h with ⟨hstep, rfl, -⟩ | ⟨before', rfl, hlater⟩
    · rcases hmode.stop_of_step hstep with hfinish | hstop
      · exact ⟨0, by simp, hmode.stop_of_finish hfinish, fun more hmore =>
          LexMode.tokensFrom_of_finish hfinish p hmore⟩
      · refine ⟨1, by simp, by simpa using hstop, ?_⟩
        intro more hmore
        exact ⟨tokensFrom (p.advance b) (mode.step p b).2 more, by simp [tokensFrom, hstep]⟩
    · -- The token comes after the first byte, and cutting starts behind this byte.
      obtain ⟨n, hn, hstop, hcut⟩ := ih (hmode.step b) hlater
      refine ⟨n + 1, by simpa using hn, by simpa using hstop, ?_⟩
      intro more hmore
      obtain ⟨after', hafter⟩ := hcut more hmore
      refine ⟨after', ?_⟩
      rw [List.take_succ_cons, List.cons_append, tokensFrom, hafter, List.append_assoc]

/-- Source cut behind one of its tokens has the same tokens up to this one, when nothing or a new
line follows. -/
theorem tokenize_take {source : Bytes} {before after : List Token} {t : Token}
    (h : tokenize source = before ++ t :: after) {more : Bytes}
    (hmore : ∀ b ∈ more.head?, b = 0x0A) :
    ∃ after', tokenize (source.take t.stop.offset.toNat ++ more) = before ++ t :: after' := by
  rw [tokenize_eq] at h
  obtain ⟨n, hn, hstop, hcut⟩ := tokensFrom_take (LexMode.tracks_gap .start) h
  have hoffset : t.stop.offset.toNat = n := by
    rw [hstop, Position.offset_foldl_advance, List.length_take_of_le hn]
    simp [Position.start]
  rw [hoffset, tokenize_eq]
  exact hcut more hmore

/-- Every token has a position. -/
theorem isValid_of_mem_tokenize {source : Bytes} {t : Token} (ht : t ∈ tokenize source) :
    t.pos.isValid := by
  obtain ⟨before, after, h⟩ := List.mem_iff_append.1 ht
  rw [tokenize_eq] at h
  obtain ⟨n, -, hstop, -⟩ := tokensFrom_take (LexMode.tracks_gap .start) h
  -- A token lies in one line, and lines are counted from one.
  have hline : t.stop.line = t.pos.line := rfl
  have hle := Position.line_le_foldl_advance .start (source.take n)
  rw [← hstop, hline] at hle
  have hstart : Position.start.line = 1 := rfl
  simp only [Position.isValid, decide_eq_true_eq]
  omega

theorem isValid_lex_stop (source : Bytes) : (lex source).stop.isValid := by
  have hle := Position.line_le_foldl_advance .start source
  have hstart : Position.start.line = 1 := rfl
  simp only [Position.isValid, decide_eq_true_eq, lex_stop]
  omega

end LuaAssembly
