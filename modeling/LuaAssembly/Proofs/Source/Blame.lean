import Mathlib
import LuaAssembly.Proofs.Chunk.Stored
import LuaAssembly.Proofs.Source.Tokens
import LuaAssembly.Source.Assembly

/-!
# What a failure depends on

The assembler reports a failure at the token that it read last, and it never looks further.  So a
failure is decided by the source up to the end of this token: whatever stands behind it, the
failure is the same.  The only failures without a position are those that are found when all tokens
have been read and the chunk is put together.
-/
namespace LuaAssembly

namespace Reading

variable {α β : Type} {P : Token → α → Prop} {Q : Token → β → Prop}

/-- After the token `last` was read, the reading fails at the token that is read last, and its
result has the property together with this token. -/
def Blames (P : Token → α → Prop) (last : Token) : Reading α → Prop
  | .done a => P last a
  | .fail f => f.pos = last.pos
  | .next resume => ∀ t, Blames P t (resume t)

theorem Blames.andThen {r : Reading α} {f : α → Reading β} {last : Token} (h : r.Blames P last)
    (hf : ∀ t a, P t a → (f a).Blames Q t) : (r.andThen f).Blames Q last := by
  induction r generalizing last with
  | done a => exact hf last a h
  | fail e => exact h
  | next resume ih => exact fun t => ih t (h t)

theorem blames_argument {f : Token → Except Cause α} (h : ∀ t a, f t = .ok a → P t a)
    (last : Token) : (argument f).Blames P last := by
  intro t
  dsimp only
  split
  · exact h t _ ‹_›
  · rfl

theorem blames_argument_bind {f : Token → Except Cause α} {k : α → Reading β}
    (h : ∀ t a, f t = .ok a → (k a).Blames Q t) (last : Token) :
    (argument f >>= k).Blames Q last :=
  (blames_argument h last).andThen fun _ _ hk => hk

end Reading

/-! ## Statements -/

/-- A declaration has the position of the token. -/
def Statement.StandsAt (t : Token) (s : Statement) : Prop :=
  ∀ name pos, s = .function name pos → pos = t.pos

theorem Head.blames_constantValue (last : Token) :
    constantValue.Blames (fun _ _ => True) last := by
  intro t
  dsimp only
  split_ifs
  · split
    · trivial
    · rfl
  · split
    · trivial
    · rfl

theorem Head.blames_operands (op : Opcode) (w : Word) (fs : List OperandFormat) (last : Token) :
    (operands op w fs).Blames (fun _ _ => True) last := by
  induction fs generalizing w last with
  | nil => trivial
  | cons f fs ih => exact Reading.blames_argument_bind (fun t v _ => ih _ t) last

/-- The arguments of a statement fail at the token read last, and a declaration stands there. -/
theorem Head.blames_arguments (head : Head) (last : Token) :
    head.arguments.Blames Statement.StandsAt last := by
  have hother : ∀ {t : Token} {s : Statement}, (∀ name pos, s ≠ .function name pos) →
      (Reading.done s).Blames Statement.StandsAt t :=
    fun hs name pos h => absurd h (hs name pos)
  cases head with
  | mnemonic op =>
    exact (blames_operands op _ _ last).andThen fun t w _ => hother (by simp)
  | directive d =>
    cases d with
    | function =>
      refine Reading.blames_argument ?_ last
      intro t s hs name pos heq
      cases hname : Argument.name t with
      | error cause => rw [hname] at hs; cases hs
      | ok word =>
        rw [hname] at hs
        cases hs
        cases heq
        rfl
    | numberFormat =>
      refine Reading.blames_argument_bind (fun _ _ _ => ?_) last
      exact Reading.blames_argument_bind (fun _ _ _ => hother (by simp)) _
    | constant =>
      refine Reading.blames_argument_bind (fun t _ _ => ?_) last
      exact (blames_constantValue t).andThen fun _ _ _ => hother (by simp)
    | localVar =>
      refine Reading.blames_argument_bind (fun _ _ _ => ?_) last
      refine Reading.blames_argument_bind (fun _ _ _ => ?_) _
      exact Reading.blames_argument_bind (fun _ _ _ => hother (by simp)) _
    | upvalue =>
      refine Reading.blames_argument_bind (fun _ _ _ => ?_) last
      refine Reading.blames_argument_bind (fun _ _ _ => ?_) _
      exact Reading.blames_argument_bind (fun _ _ _ => hother (by simp)) _
    | _ => exact Reading.blames_argument_bind (fun _ _ _ => hother (by simp)) last

/-- Only a declaration can fail to be applied, and it fails where it stands. -/
theorem Draft.pos_of_apply_eq_error {d : Draft} {t : Token} {s : Statement} {e : SourceError}
    (hs : s.StandsAt t) (h : d.apply s = .error e) : e.pos = t.pos := by
  cases s with
  | function name pos =>
    rw [Draft.apply] at h
    split at h
    · cases h
    · cases h
      exact hs name pos rfl
  | _ => cases h

/-! ## Runs -/

namespace Assembly

theorem blames_start (last : Token) : start.Blames (fun _ _ => True) last := by
  refine Reading.blames_argument_bind (fun t _ _ => ?_) last
  refine Reading.blames_argument_bind (fun t' _ _ => ?_) t
  trivial

/-- A token keeps the assembler from blaming any other, unless it had failed before. -/
theorem blames_feed {r : Reading Draft} {last : Token} (h : r.Blames (fun _ _ => True) last)
    (hr : ∀ f, r ≠ .fail f) (t : Token) : (feed r t).Blames (fun _ _ => True) t := by
  cases r with
  | fail f => exact absurd rfl (hr f)
  | next resume => exact h t
  | done d =>
    rw [feed, begin]
    split
    · rfl
    · split
      · rfl
      · refine (Head.blames_arguments _ t).andThen ?_
        intro t' s hs
        split
        · trivial
        · exact Draft.pos_of_apply_eq_error hs ‹_›

/-- A run that fails does so at some token, which it blames. -/
theorem exists_of_foldl_feed_eq_fail {r : Reading Draft} {last : Token} {ts : List Token}
    {f : Failure} (hblames : r.Blames (fun _ _ => True) last) (hr : ∀ f, r ≠ .fail f)
    (h : ts.foldl feed r = .fail f) :
    ∃ before t after, ts = before ++ t :: after ∧ (∀ f, before.foldl feed r ≠ .fail f) ∧
      (before ++ [t]).foldl feed r = .fail f ∧ f.pos = t.pos := by
  induction ts generalizing r last with
  | nil => exact absurd h (hr f)
  | cons t ts ih =>
    have hnext := blames_feed hblames hr t
    by_cases hfail : ∃ g, feed r t = .fail g
    · obtain ⟨g, hg⟩ := hfail
      rw [List.foldl_cons, hg, foldl_feed_fail] at h
      cases h
      rw [hg] at hnext
      exact ⟨[], t, ts, rfl, hr, hg, hnext⟩
    · obtain ⟨before, u, after, rfl, hbefore, hu, hpos⟩ :=
        ih hnext (fun g hg => hfail ⟨g, hg⟩) h
      exact ⟨t :: before, u, after, rfl, hbefore, hu, hpos⟩

end Assembly

/-! ## Drafts that cannot be finished -/

/-- Something is missing when all of the source has been read, or does not go together. -/
def Cause.IsUnfinished : Cause → Prop
  | .missing _ | .noFunction | .invalidHeader _ | .missingIn _ _ => True
  | _ => False

theorem HeaderDraft.isUnfinished_of_finish {h : HeaderDraft} {cause : Cause}
    (hcause : h.finish = .error cause) : cause.IsUnfinished := by
  obtain ⟨format, endianness, intSize, sizeTSize, instructionSize, numberFormat⟩ := h
  rcases format with _ | _
  · cases hcause; trivial
  rcases endianness with _ | _
  · cases hcause; trivial
  rcases intSize with _ | _
  · cases hcause; trivial
  rcases sizeTSize with _ | _
  · cases hcause; trivial
  rcases instructionSize with _ | _
  · cases hcause; trivial
  rcases numberFormat with _ | _
  · cases hcause; trivial
  cases hcause

theorem FunctionDraft.isUnfinished_of_finish {f : FunctionDraft} {cause : Cause}
    (hcause : f.finish = .error cause) : cause.IsUnfinished := by
  obtain ⟨name, parent, source, lineDefined, lastLineDefined, numParams, isVararg, maxStackSize,
    code, constants, lines, locals, upvalues⟩ := f
  rcases source with _ | _
  · cases hcause; trivial
  rcases lineDefined with _ | _
  · cases hcause; trivial
  rcases lastLineDefined with _ | _
  · cases hcause; trivial
  rcases numParams with _ | _
  · cases hcause; trivial
  rcases isVararg with _ | _
  · cases hcause; trivial
  rcases maxStackSize with _ | _
  · cases hcause; trivial
  cases hcause

theorem Draft.isUnfinished_of_finish {d : Draft} {cause : Cause}
    (hcause : d.finish = .error cause) : cause.IsUnfinished := by
  rw [Draft.finish] at hcause
  cases hheader : d.header.finish with
  | error c =>
    rw [hheader] at hcause
    cases hcause
    exact HeaderDraft.isUnfinished_of_finish hheader
  | ok header =>
  rw [hheader] at hcause
  cases hempty : d.functions.isEmpty with
  | true => rw [hempty] at hcause; cases hcause; trivial
  | false =>
  rw [hempty] at hcause
  dsimp only [bind, Except.bind] at hcause
  simp only [Bool.false_eq_true, if_false] at hcause
  split at hcause
  · cases hcause
    trivial
  · split at hcause
    · cases hcause
      obtain ⟨f, -, hf⟩ := FunctionTree.exists_of_traverse_eq_error _ ‹_›
      exact FunctionDraft.isUnfinished_of_finish hf
    · cases hcause

/-! ## The failure of a source text -/

theorem parse_eq (source : Bytes) : parse source =
    Assembly.conclude (lex source).stop
      ((tokenize source).foldl Assembly.feed Assembly.start) :=
  rfl

/-- The ways in which source fails: at a token, by ending inside a statement, or because the draft
of the whole source cannot be finished. -/
theorem parse_failure_cases {source : Bytes} {failure : Failure}
    (h : parse source = .error failure) :
    (∃ before last after, tokenize source = before ++ last :: after ∧
        (∀ f, before.foldl Assembly.feed Assembly.start ≠ .fail f) ∧
        (before ++ [last]).foldl Assembly.feed Assembly.start = .fail failure ∧
        failure.pos = last.pos) ∨
      (∃ resume, (tokenize source).foldl Assembly.feed Assembly.start = .next resume ∧
        failure = .error ⟨(lex source).stop, .unexpectedEnd⟩) ∨
      ∃ d cause, (tokenize source).foldl Assembly.feed Assembly.start = .done d ∧
        d.finish = .error cause ∧ failure = .error ⟨.none, cause⟩ := by
  rw [parse_eq] at h
  cases hrun : (tokenize source).foldl Assembly.feed Assembly.start with
  | fail f =>
    rw [hrun] at h
    cases h
    have hstart : ∀ f, Assembly.start ≠ .fail f := by
      rintro f ⟨⟩
    exact .inl (Assembly.exists_of_foldl_feed_eq_fail (Assembly.blames_start ⟨.eof, [], .none⟩)
      hstart hrun)
  | next resume =>
    rw [hrun] at h
    cases h
    exact .inr (.inl ⟨resume, rfl, rfl⟩)
  | done d =>
    rw [hrun, Assembly.conclude] at h
    cases hfinish : d.finish with
    | ok chunk => rw [hfinish] at h; cases h
    | error cause =>
      rw [hfinish] at h
      cases h
      exact .inr (.inr ⟨d, cause, rfl, hfinish, rfl⟩)

/-- A failure is decided by the source up to the token it is reported at, which is the last one that
was read.  A failure without a position is found when no token is left. -/
theorem parse_failure_decided {source : Bytes} {failure : Failure}
    (h : parse source = .error failure) :
    (failure.pos.isValid → failure.pos ≠ (lex source).stop →
      ∃ before last after, tokenize source = before ++ last :: after ∧ failure.pos = last.pos ∧
        (∀ f, before.foldl Assembly.feed Assembly.start ≠ .fail f) ∧
        (before ++ [last]).foldl Assembly.feed Assembly.start = .fail failure ∧
        ∀ more : Bytes, (∀ b ∈ more.head?, b = 0x0A) →
          parse (source.take last.stop.offset.toNat ++ more) = .error failure) ∧
    (failure.pos.isValid = false → ∃ d cause,
      (tokenize source).foldl Assembly.feed Assembly.start = .done d ∧
        d.finish = .error cause ∧ cause.IsUnfinished ∧ failure = .error ⟨.none, cause⟩) := by
  have hstart : ∀ f, Assembly.start ≠ .fail f := by
    rintro f ⟨⟩
  rw [parse_eq] at h
  cases hrun : (tokenize source).foldl Assembly.feed Assembly.start with
  | done d =>
    rw [hrun, Assembly.conclude] at h
    cases hfinish : d.finish with
    | ok chunk => rw [hfinish] at h; cases h
    | error cause =>
      rw [hfinish] at h
      cases h
      refine ⟨fun hvalid => (by cases hvalid), fun _ => ?_⟩
      exact ⟨d, cause, rfl, hfinish, Draft.isUnfinished_of_finish hfinish, rfl⟩
  | next resume =>
    rw [hrun] at h
    cases h
    simp only [Failure.pos, ne_eq, not_true_eq_false, false_implies, implies_true, true_and,
      isValid_lex_stop source, Bool.true_eq_false]
  | fail f =>
    rw [hrun] at h
    cases h
    obtain ⟨before, last, after, htokens, hbefore, hlast, hpos⟩ :=
      Assembly.exists_of_foldl_feed_eq_fail (Assembly.blames_start ⟨.eof, [], .none⟩) hstart hrun
    refine ⟨fun _ _ => ⟨before, last, after, htokens, hpos, hbefore, hlast, ?_⟩, ?_⟩
    · intro more hmore
      obtain ⟨after', hcut⟩ := tokenize_take htokens hmore
      have hagain : (tokenize (source.take last.stop.offset.toNat ++ more)).foldl Assembly.feed
          Assembly.start = .fail failure := by
        rw [hcut, List.append_cons, List.foldl_append, hlast, Assembly.foldl_feed_fail]
      rw [parse_eq, hagain, Assembly.conclude]
    · have hmem : last ∈ tokenize source := by simp [htokens]
      rw [hpos, isValid_of_mem_tokenize hmem]
      rintro ⟨⟩

/-- Source with a literal that is not closed in its line. -/
def unclosedSource : Bytes :=
  [ utf8 ".version 5.1\n", utf8 ".function main ; path\n", utf8 ".source \"@a.lua ; b\n",
    utf8 ".line \"1\"\n" ].flatten

theorem parse_failure_decided_unclosedSource :
    ∃ failure last, parse unclosedSource = .error failure ∧ failure.pos.isValid ∧
      failure.pos ≠ (lex unclosedSource).stop ∧ last ∈ tokenize unclosedSource ∧
      failure.pos = last.pos ∧ ∀ more : Bytes, (∀ b ∈ more.head?, b = 0x0A) →
        parse (unclosedSource.take last.stop.offset.toNat ++ more) = .error failure := by
  obtain ⟨failure, hfailure⟩ : ∃ failure : Failure,
      failure = .error ⟨⟨43, 3, 9⟩, .literal (utf8 "\"@a.lua ; b") .notQuoted⟩ := ⟨_, rfl⟩
  have hparse : parse unclosedSource = .error failure := by rw [hfailure]; decide +kernel
  have hvalid : failure.pos.isValid := by rw [hfailure]; decide
  have hstop : failure.pos ≠ (lex unclosedSource).stop := by rw [hfailure]; decide +kernel
  obtain ⟨before, last, after, htokens, hpos, -, -, hcut⟩ :=
    (parse_failure_decided hparse).1 hvalid hstop
  exact ⟨failure, last, hparse, hvalid, hstop, by simp [htokens], hpos, hcut⟩

end LuaAssembly
