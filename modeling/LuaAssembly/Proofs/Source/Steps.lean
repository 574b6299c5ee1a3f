import Mathlib
import LuaAssembly.Proofs.Source.Blame
import LuaAssembly.Proofs.Source.Grammar

/-!
# Statement by statement

The assembler is fed with tokens, but between statements only whole statements have taken effect.
`Spelled ts ss` cuts the tokens into phrases, and `Draft.Reaches d ss d'` carries out the
statements one after the other.  The main statement is that the tokens lead the assembler from one
draft to another exactly when they spell statements that do; so whatever every statement keeps is
kept by every sequence of tokens.
-/
namespace LuaAssembly

/-- The directive of a statement; an instruction has none. -/
def Statement.directive? : Statement → Option Directive
  | .format _ => some .format
  | .endianness _ => some .endianness
  | .intSize _ => some .intSize
  | .sizeTSize _ => some .sizeTSize
  | .instructionSize _ => some .instructionSize
  | .numberFormat _ _ => some .numberFormat
  | .function _ _ => some .function
  | .source _ => some .source
  | .lineDefined _ => some .lineDefined
  | .lastLineDefined _ => some .lastLineDefined
  | .numParams _ => some .numParams
  | .isVararg _ => some .isVararg
  | .maxStackSize _ => some .maxStackSize
  | .constant _ => some .constant
  | .line _ => some .line
  | .localVar _ => some .localVar
  | .upvalue _ => some .upvalue
  | .instruction _ => none

theorem Clause.directive?_eq {dir : Directive} {args : List Token} {s : Statement}
    (h : Clause dir args s) : s.directive? = some dir := by
  cases h <;> rfl

namespace Draft

/-- The statement may stand at this place. -/
def Allows (d : Draft) (s : Statement) : Prop :=
  match s.directive? with
  | some dir => d.objection? (.directive dir) = none
  | none => ∃ f, d.current = some f ∧ f.maxStackSize.isSome

/-- Objections are found at the head, but the statement tells as much. -/
theorem objection?_eq_none_iff {d : Draft} {head : Head} {args : List Token} {s : Statement}
    (h : head.arguments.Completes args s) : d.objection? head = none ↔ d.Allows s := by
  cases head with
  | directive dir => rw [Allows, (Head.clause_of_completes h).directive?_eq]
  | mnemonic op =>
    obtain ⟨w, us, vs, -, -, hdone⟩ := Reading.completes_andThen.1 h
    obtain ⟨-, rfl⟩ := Reading.completes_done.1 hdone
    cases hcurrent : d.current with
    | none => simp [objection?, Allows, Statement.directive?, hcurrent]
    | some f =>
      cases hsize : f.maxStackSize <;>
        simp [objection?, Allows, Statement.directive?, hcurrent, hsize]

/-- The statements lead from one draft to the other. -/
inductive Reaches : Draft → List Statement → Draft → Prop where
  | nil (d : Draft) : Reaches d [] d
  | cons {d d₁ d' : Draft} {s : Statement} {ss : List Statement} (hallows : d.Allows s)
    (happly : d.apply s = .ok d₁) (hrest : Reaches d₁ ss d') : Reaches d (s :: ss) d'

namespace Reaches

variable {d d' d'' : Draft} {s : Statement} {ss ss' : List Statement}

@[simp] theorem nil_iff : d.Reaches [] d' ↔ d' = d := by
  constructor
  · rintro ⟨⟩
    rfl
  · rintro rfl
    exact .nil d'

theorem cons_iff :
    d.Reaches (s :: ss) d' ↔ d.Allows s ∧ ∃ d₁, d.apply s = .ok d₁ ∧ d₁.Reaches ss d' := by
  constructor
  · rintro (_ | ⟨hallows, happly, hrest⟩)
    exact ⟨hallows, _, happly, hrest⟩
  · rintro ⟨hallows, d₁, happly, hrest⟩
    exact .cons hallows happly hrest

theorem append_iff : d.Reaches (ss ++ ss') d' ↔ ∃ d₁, d.Reaches ss d₁ ∧ d₁.Reaches ss' d' := by
  induction ss generalizing d with
  | nil => simp
  | cons s ss ih =>
    simp only [List.cons_append, cons_iff, ih]
    constructor
    · rintro ⟨hallows, d₁, happly, d₂, hss, hss'⟩
      exact ⟨d₂, ⟨hallows, d₁, happly, hss⟩, hss'⟩
    · rintro ⟨d₂, ⟨hallows, d₁, happly, hss⟩, hss'⟩
      exact ⟨hallows, d₁, happly, d₂, hss, hss'⟩

/-- What every statement keeps is kept by a run. -/
theorem invariant {P : Draft → Prop}
    (hstep : ∀ {d d₁ : Draft} {s : Statement}, P d → d.Allows s → d.apply s = .ok d₁ → P d₁)
    (h : d.Reaches ss d') (hd : P d) : P d' := by
  induction h with
  | nil d => exact hd
  | cons hallows happly _ ih => exact ih (hstep hd hallows happly)

end Reaches

end Draft

/-- The tokens are the statements, one after the other. -/
inductive Spelled : List Token → List Statement → Prop where
  | nil : Spelled [] []
  | cons {us vs : List Token} {s : Statement} {ss : List Statement} (hs : Phrase us s)
    (hrest : Spelled vs ss) : Spelled (us ++ vs) (s :: ss)

/-- The tokens are the version, which opens every source, and the statements. -/
inductive Opened : List Token → List Statement → Prop where
  | intro {v n : Token} {ts : List Token} {ss : List Statement}
    (hv : v.literal = Directive.versionToken) (hn : n.literal = Assembly.versionNumber)
    (hts : Spelled ts ss) : Opened (v :: n :: ts) ss

namespace Assembly

open Reading

/-- A statement is carried out when its phrase is complete. -/
theorem completes_begin_iff {d d' : Draft} {t : Token} {args : List Token} :
    (begin d t).Completes args d' ↔
      ∃ s, Phrase (t :: args) s ∧ d.Allows s ∧ d.apply s = .ok d' := by
  simp only [← Head.completes_arguments_iff]
  rw [begin]
  constructor
  · intro h
    split at h
    · exact absurd h not_completes_fail
    · rename_i head hhead
      split at h
      · exact absurd h not_completes_fail
      · rename_i hobjection
        obtain ⟨s, us, vs, rfl, hs, happly⟩ := completes_andThen.1 h
        cases hd : d.apply s with
        | error e => simp [hd] at happly
        | ok d₁ =>
          obtain ⟨rfl, rfl⟩ : vs = [] ∧ d₁ = d' := by simpa [hd] using happly
          rw [List.append_nil]
          exact ⟨s, ⟨head, hhead, hs⟩, (Draft.objection?_eq_none_iff hs).1 hobjection, hd⟩
  · rintro ⟨s, ⟨head, hhead, hs⟩, hallows, hd⟩
    simp only [hhead, (Draft.objection?_eq_none_iff hs).2 hallows]
    refine completes_andThen.2 ⟨s, args, [], (List.append_nil args).symm, hs, ?_⟩
    simp [hd]

theorem foldl_feed_eq_done_iff {r : Reading Draft} {ts : List Token} {d' : Draft} :
    ts.foldl feed r = .done d' ↔
      ∃ us vs d, ts = us ++ vs ∧ r.Completes us d ∧ vs.foldl feed (.done d) = .done d' := by
  induction r generalizing ts with
  | done d => simp
  | fail e => simp [foldl_feed_fail]
  | next resume ih =>
    cases ts with
    | nil => simp
    | cons t ts =>
      rw [List.foldl_cons, feed, ih]
      simp only [completes_next]
      constructor
      · rintro ⟨us, vs, d, rfl, hus, hvs⟩
        exact ⟨t :: us, vs, d, rfl, ⟨t, us, rfl, hus⟩, hvs⟩
      · rintro ⟨_, vs, d, hts, ⟨t, us, rfl, hus⟩, hvs⟩
        obtain ⟨rfl, rfl⟩ := List.cons.inj hts
        exact ⟨us, vs, d, rfl, hus, hvs⟩

/-- Between statements, tokens lead from one draft to another by the statements they spell. -/
theorem foldl_feed_done_iff {d d' : Draft} {ts : List Token} :
    ts.foldl feed (.done d) = .done d' ↔ ∃ ss, Spelled ts ss ∧ d.Reaches ss d' := by
  constructor
  · intro h
    -- Each phrase is at least one token, so the rest is shorter.
    induction hlength : ts.length using Nat.strong_induction_on generalizing ts d with
    | _ n ih =>
      cases ts with
      | nil =>
        cases h
        exact ⟨[], .nil, .nil d'⟩
      | cons t ts =>
        rw [List.foldl_cons, feed] at h
        obtain ⟨us, vs, d₁, rfl, hus, hvs⟩ := foldl_feed_eq_done_iff.1 h
        obtain ⟨s, hs, hallows, happly⟩ := completes_begin_iff.1 hus
        obtain ⟨ss, hss, hreach⟩ := ih vs.length (by simp at hlength; omega) hvs rfl
        exact ⟨s :: ss, .cons hs hss, .cons hallows happly hreach⟩
  · rintro ⟨ss, hss, hreach⟩
    induction hss generalizing d with
    | nil =>
      rw [Draft.Reaches.nil_iff] at hreach
      rw [hreach]
      rfl
    | @cons us vs s ss hs _ ih =>
      obtain ⟨hallows, d₁, happly, hreach⟩ := Draft.Reaches.cons_iff.1 hreach
      obtain ⟨t, args, rfl⟩ : ∃ t args, us = t :: args := by cases hs <;> exact ⟨_, _, rfl⟩
      rw [List.cons_append, List.foldl_cons, feed]
      refine foldl_feed_eq_done_iff.2 ⟨args, vs, d₁, rfl, ?_, ih hreach⟩
      exact completes_begin_iff.2 ⟨s, hs, hallows, happly⟩

theorem completes_start_iff {ts : List Token} {d : Draft} :
    start.Completes ts d ↔ ∃ v n, ts = [v, n] ∧ v.literal = Directive.versionToken ∧
      n.literal = versionNumber ∧ d = .empty := by
  rw [start, completes_argument_bind]
  simp only [completes_argument_bind, completes_pure]
  constructor
  · rintro ⟨v, _, _, rfl, hv, n, _, _, rfl, hn, rfl, rfl⟩
    split_ifs at hv with hversion
    split_ifs at hn with hnumber
    exact ⟨v, n, rfl, hversion, hnumber, rfl⟩
  · rintro ⟨v, n, rfl, hv, hn, rfl⟩
    exact ⟨v, _, (), rfl, if_pos hv, n, _, (), rfl, if_pos hn, rfl, rfl⟩

/-- The drafts that the assembler can reach. -/
theorem foldl_feed_start_iff {ts : List Token} {d : Draft} :
    ts.foldl feed start = .done d ↔ ∃ ss, Opened ts ss ∧ Draft.empty.Reaches ss d := by
  rw [foldl_feed_eq_done_iff]
  simp only [completes_start_iff, foldl_feed_done_iff]
  constructor
  · rintro ⟨_, vs, _, rfl, ⟨v, n, rfl, hv, hn, rfl⟩, ss, hss, hreach⟩
    exact ⟨ss, .intro hv hn hss, hreach⟩
  · rintro ⟨ss, ⟨hv, hn, hss⟩, hreach⟩
    exact ⟨_, _, _, rfl, ⟨_, _, rfl, hv, hn, rfl⟩, ss, hss, hreach⟩

end Assembly

end LuaAssembly
