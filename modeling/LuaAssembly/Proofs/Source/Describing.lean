import Mathlib
import LuaAssembly.Proofs.Source.Lexing
import LuaAssembly.Source.Assembly

/-!
# What a text describes

`Gives` says which tokens complete a reading, and with what result; `Fails` says which tokens it
does not accept.  `Describes text r r'` says that the assembler, fed with the tokens of a piece of
source, goes from one state to another, and `Refuses text r` that it fails.  Pieces are put one
after the other, and a statement is described by its line; so the draft that a listing describes
is found line by line.
-/
namespace LuaAssembly

namespace Reading

variable {α β : Type}

/-- Tokens of the given shapes, wherever they stand, complete the reading, and the result has the
property. -/
def Gives (P : α → Prop) : List (TokenKind × Bytes) → Reading α → Prop
  | [], .done a => P a
  | s :: ss, .next resume => ∀ t : Token, t.shape = s → Gives P ss (resume t)
  | _, _ => False

/-- One token whose meaning is known from its shape. -/
theorem gives_argument {P : α → Prop} {s : TokenKind × Bytes} {f : Token → Except Cause α}
    (h : ∀ t : Token, t.shape = s → ∃ a, f t = .ok a ∧ P a) : Gives P [s] (argument f) := by
  intro t ht
  obtain ⟨a, ha, hP⟩ := h t ht
  simp only [ha]
  exact hP

/-- One token whose meaning is known from its shape, and then the rest. -/
theorem gives_argument_bind {P : β → Prop} {s : TokenKind × Bytes} {ss : List (TokenKind × Bytes)}
    {f : Token → Except Cause α} {k : α → Reading β} {a : α}
    (h : ∀ t : Token, t.kind = s.1 → t.literal = s.2 → f t = .ok a) (hk : Gives P ss (k a)) :
    Gives P (s :: ss) (argument f >>= k) := by
  intro t ht
  obtain rfl := ht
  simp only [h t rfl rfl, andThen_done]
  exact hk

/-- Two readings one after the other. -/
theorem Gives.andThen {P : α → Prop} {Q : β → Prop} {ss ss' : List (TokenKind × Bytes)}
    {r : Reading α} {f : α → Reading β} (h : Gives P ss r) (hf : ∀ a, P a → Gives Q ss' (f a)) :
    Gives Q (ss ++ ss') (r.andThen f) := by
  induction ss generalizing r with
  | nil =>
    cases r with
    | done a => exact hf a h
    | fail e => cases h
    | next resume => cases h
  | cons s ss ih =>
    cases r with
    | done a => cases h
    | fail e => cases h
    | next resume => exact fun t ht => ih (h t ht)

theorem Gives.imp {P Q : α → Prop} (hPQ : ∀ a, P a → Q a) {ss : List (TokenKind × Bytes)}
    {r : Reading α} (h : Gives P ss r) : Gives Q ss r := by
  induction ss generalizing r with
  | nil =>
    cases r with
    | done a => exact hPQ a h
    | fail e => cases h
    | next resume => cases h
  | cons s ss ih =>
    cases r with
    | done a => cases h
    | fail e => cases h
    | next resume => exact fun t ht => ih (h t ht)

/-- Tokens of the given shapes, wherever they stand, make the reading fail. -/
def Fails : List (TokenKind × Bytes) → Reading α → Prop
  | _, .fail _ => True
  | s :: ss, .next resume => ∀ t : Token, t.shape = s → Fails ss (resume t)
  | _, _ => False

/-- One token that is not accepted. -/
theorem fails_argument_bind {s : TokenKind × Bytes} (ss : List (TokenKind × Bytes))
    {f : Token → Except Cause α} (k : α → Reading β)
    (h : ∀ t : Token, t.literal = s.2 → ∃ cause, f t = .error cause) :
    Fails (s :: ss) (argument f >>= k) := by
  intro t ht
  obtain rfl := ht
  obtain ⟨cause, hcause⟩ := h t rfl
  simp only [hcause]
  cases ss <;> exact trivial

/-- One token whose meaning is known from its shape, and then something that is not accepted. -/
theorem Fails.argument_bind {s : TokenKind × Bytes} {ss : List (TokenKind × Bytes)}
    {f : Token → Except Cause α} {k : α → Reading β} {a : α} (hk : Fails ss (k a))
    (h : ∀ t : Token, t.kind = s.1 → t.literal = s.2 → f t = .ok a) :
    Fails (s :: ss) (argument f >>= k) := by
  intro t ht
  obtain rfl := ht
  simp only [h t rfl rfl, andThen_done]
  exact hk

theorem Fails.andThen {ss : List (TokenKind × Bytes)} {r : Reading α} (h : Fails ss r)
    (f : α → Reading β) : Fails ss (r.andThen f) := by
  induction ss generalizing r with
  | nil =>
    cases r with
    | done a => cases h
    | fail e => exact trivial
    | next resume => cases h
  | cons s ss ih =>
    cases r with
    | done a => cases h
    | fail e => exact trivial
    | next resume => exact fun t ht => ih (h t ht)

end Reading

namespace Assembly

/-- Feeding the assembler with tokens that its reading does not accept. -/
theorem foldl_feed_of_fails {ss : List (TokenKind × Bytes)} {r : Reading Draft} (h : r.Fails ss)
    {ts : List Token} (hts : ts.map Token.shape = ss) : ∃ e, ts.foldl feed r = .fail e := by
  induction ss generalizing r ts with
  | nil =>
    obtain rfl := List.map_eq_nil_iff.1 hts
    cases r with
    | done d => cases h
    | fail e => exact ⟨e, rfl⟩
    | next resume => cases h
  | cons s ss ih =>
    obtain ⟨t, ts, rfl, ht, hts⟩ := List.map_eq_cons_iff.1 hts
    cases r with
    | done d => cases h
    | fail e => exact ⟨e, foldl_feed_fail e _⟩
    | next resume => exact ih (h t ht) hts

/-- Feeding the assembler with the tokens that complete its reading. -/
theorem foldl_feed_of_gives {P : Draft → Prop} {ss : List (TokenKind × Bytes)} {r : Reading Draft}
    (h : r.Gives P ss) {ts : List Token} (hts : ts.map Token.shape = ss) :
    ∃ d, P d ∧ ts.foldl feed r = .done d := by
  induction ss generalizing r ts with
  | nil =>
    obtain rfl := List.map_eq_nil_iff.1 hts
    cases r with
    | done d => exact ⟨d, h, rfl⟩
    | fail e => cases h
    | next resume => cases h
  | cons s ss ih =>
    obtain ⟨t, ts, rfl, ht, hts⟩ := List.map_eq_cons_iff.1 hts
    cases r with
    | done d => cases h
    | fail e => cases h
    | next resume => exact ih (h t ht) hts

end Assembly

/-- Fed with the tokens of the text, the assembler goes from one state to the other. -/
def Describes (text : Bytes) (r r' : Reading Draft) : Prop :=
  ∃ shapes, Spells text shapes ∧
    ∀ ts : List Token, ts.map Token.shape = shapes → ts.foldl Assembly.feed r = r'

namespace Describes

variable {text text₁ text₂ : Bytes} {r r₁ r₂ : Reading Draft} {d d' : Draft}

theorem of_spells_nil (h : Spells text []) (r : Reading Draft) : Describes text r r := by
  refine ⟨[], h, ?_⟩
  intro ts hts
  rw [List.map_eq_nil_iff.1 hts]
  rfl

theorem nil (r : Reading Draft) : Describes [] r r :=
  of_spells_nil Spells.nil r

theorem append (h₁ : Describes text₁ r r₁) (h₂ : Describes text₂ r₁ r₂) :
    Describes (text₁ ++ text₂) r r₂ := by
  obtain ⟨shapes₁, hs₁, hfeed₁⟩ := h₁
  obtain ⟨shapes₂, hs₂, hfeed₂⟩ := h₂
  refine ⟨shapes₁ ++ shapes₂, hs₁.append hs₂, ?_⟩
  intro ts hts
  obtain ⟨ts₁, ts₂, rfl, h₁, h₂⟩ := List.map_eq_append_iff.1 hts
  rw [List.foldl_append, hfeed₁ ts₁ h₁, hfeed₂ ts₂ h₂]

/-- An empty line. -/
theorem newline (r : Reading Draft) : Describes (utf8 "\n") r r := by
  rw [show utf8 "\n" = [0x0A] by decide]
  exact of_spells_nil (Spells.blank (by decide)) r

/-- A piece of source that is a statement. -/
theorem statement (head : Head) {s : TokenKind × Bytes} {ss : List (TokenKind × Bytes)}
    (htext : Spells text (s :: ss)) (hhead : ∀ t : Token, t.shape = s → Head.ofToken? t = some head)
    (hobjection : d.objection? head = none)
    (hread : head.arguments.Gives (fun st => d.apply st = .ok d') ss) :
    Describes text (.done d) (.done d') := by
  refine ⟨s :: ss, htext, ?_⟩
  intro ts hts
  obtain ⟨t, ts, rfl, ht, hts⟩ := List.map_eq_cons_iff.1 hts
  rw [List.foldl_cons, Assembly.feed, Assembly.begin, hhead t ht]
  simp only [hobjection]
  have hfeed : ∀ r : Reading Draft, r.Gives (· = d') ss → ts.foldl Assembly.feed r = .done d' := by
    intro r hgives
    obtain ⟨d'', rfl, hfeed⟩ := Assembly.foldl_feed_of_gives hgives hts
    exact hfeed
  apply hfeed
  rw [← List.append_nil ss]
  exact hread.andThen fun st hst => by rw [hst]; exact rfl

theorem ofToken?_of_shape {dir : Directive} {t : Token} (ht : t.shape = (.word, dir.token)) :
    Head.ofToken? t = some (.directive dir) := by
  obtain ⟨-, hliteral⟩ := Prod.mk.inj ht
  rw [Head.ofToken?, hliteral, Directive.ofToken?_token]

/-- A piece of source that is a directive with its arguments. -/
theorem directive (dir : Directive) {args : List (TokenKind × Bytes)}
    (htext : Spells text ((.word, dir.token) :: args))
    (hobjection : d.objection? (.directive dir) = none)
    (hread : (Head.directiveArguments dir).Gives (fun st => d.apply st = .ok d') args) :
    Describes text (.done d) (.done d') :=
  statement (.directive dir) htext (fun _ ht => ofToken?_of_shape ht) hobjection hread

end Describes

/-- Fed with the tokens of the text, the assembler fails. -/
def Refuses (text : Bytes) (r : Reading Draft) : Prop :=
  ∃ shapes, Spells text shapes ∧
    ∀ ts : List Token, ts.map Token.shape = shapes → ∃ e, ts.foldl Assembly.feed r = .fail e

/-- The text describes how to go from one state to the other if `P` holds, and is refused if
not. -/
structure DescribesIff (P : Prop) (text : Bytes) (r r' : Reading Draft) : Prop where
  describes : P → Describes text r r'
  refuses : ¬ P → Refuses text r

section Pieces

variable {P Q : Prop} {text text₁ text₂ : Bytes} {r r₁ r₂ : Reading Draft} {d d' : Draft}

/-- A directive with arguments that are not accepted. -/
theorem Refuses.directive (dir : Directive) {args : List (TokenKind × Bytes)}
    (htext : Spells text ((.word, dir.token) :: args))
    (hobjection : d.objection? (.directive dir) = none)
    (hread : (Head.directiveArguments dir).Fails args) : Refuses text (.done d) := by
  refine ⟨_, htext, ?_⟩
  intro ts hts
  obtain ⟨t, ts, rfl, ht, hts⟩ := List.map_eq_cons_iff.1 hts
  rw [List.foldl_cons, Assembly.feed, Assembly.begin, Describes.ofToken?_of_shape ht]
  simp only [hobjection]
  exact Assembly.foldl_feed_of_fails (hread.andThen _) hts

theorem Describes.refuses (h₁ : Describes text₁ r r₁) (h₂ : Refuses text₂ r₁) :
    Refuses (text₁ ++ text₂) r := by
  obtain ⟨shapes₁, hs₁, hfeed₁⟩ := h₁
  obtain ⟨shapes₂, hs₂, hfeed₂⟩ := h₂
  refine ⟨shapes₁ ++ shapes₂, hs₁.append hs₂, ?_⟩
  intro ts hts
  obtain ⟨ts₁, ts₂, rfl, h₁, h₂⟩ := List.map_eq_append_iff.1 hts
  rw [List.foldl_append, hfeed₁ ts₁ h₁]
  exact hfeed₂ ts₂ h₂

/-- What is refused stays so, whatever tokens follow. -/
theorem Refuses.append {shapes : List (TokenKind × Bytes)} (h₁ : Refuses text₁ r)
    (h₂ : Spells text₂ shapes) : Refuses (text₁ ++ text₂) r := by
  obtain ⟨shapes₁, hs₁, hfeed₁⟩ := h₁
  refine ⟨shapes₁ ++ shapes, hs₁.append h₂, ?_⟩
  intro ts hts
  obtain ⟨ts₁, ts₂, rfl, h₁, -⟩ := List.map_eq_append_iff.1 hts
  obtain ⟨e, he⟩ := hfeed₁ ts₁ h₁
  exact ⟨e, by rw [List.foldl_append, he, Assembly.foldl_feed_fail]⟩

theorem Describes.iff (h : Describes text r r₁) : DescribesIff True text r r₁ :=
  ⟨fun _ => h, fun hn => absurd trivial hn⟩

namespace DescribesIff

theorem congr (h : DescribesIff P text r r₁) (hPQ : P ↔ Q) : DescribesIff Q text r r₁ :=
  ⟨fun hQ => h.describes (hPQ.2 hQ), fun hQ => h.refuses (mt hPQ.1 hQ)⟩

/-- Accepted or not, the text is made of tokens. -/
theorem spells (h : DescribesIff P text r r₁) : ∃ shapes, Spells text shapes := by
  by_cases hP : P
  · obtain ⟨shapes, hs, -⟩ := h.describes hP
    exact ⟨shapes, hs⟩
  · obtain ⟨shapes, hs, -⟩ := h.refuses hP
    exact ⟨shapes, hs⟩

/-- Two pieces are accepted if both are. -/
theorem append (h₁ : DescribesIff P text₁ r r₁) (h₂ : DescribesIff Q text₂ r₁ r₂) :
    DescribesIff (P ∧ Q) (text₁ ++ text₂) r r₂ := by
  refine ⟨fun h => (h₁.describes h.1).append (h₂.describes h.2), fun h => ?_⟩
  by_cases hP : P
  · exact (h₁.describes hP).refuses (h₂.refuses fun hQ => h ⟨hP, hQ⟩)
  · obtain ⟨shapes, hs⟩ := h₂.spells
    exact (h₁.refuses hP).append hs

end DescribesIff

end Pieces

theorem isWord_token (dir : Directive) : IsWord dir.token := by
  cases dir <;> exact isWord_utf8 (by decide +kernel)

/-- A directive with its arguments on a line of its own. -/
theorem Spells.directive (dir : Directive) {args : List (TokenKind × Bytes)}
    (hargs : ∀ s ∈ args, IsArgument s) :
    Spells (Bytes.join (utf8 " ") (dir.token :: args.map Prod.snd) ++ utf8 "\n")
      ((.word, dir.token) :: args) :=
  Spells.line (List.forall_mem_cons.2 ⟨.word (isWord_token dir), hargs⟩)

theorem Spells.shapes_lex {text : Bytes} {shapes : List (TokenKind × Bytes)}
    (h : Spells text shapes) : (lex text).tokens.map Token.shape = shapes := by
  obtain ⟨p, ts, hlex, hshapes⟩ := h .start [] []
  rw [List.append_nil, List.append_nil] at hlex
  have htokens : lex text = ⟨ts.reverse, p⟩ := hlex
  rw [htokens]
  exact hshapes

/-- A source text is accepted when it describes a finished draft. -/
theorem DescribesIff.parse_eq_ok_iff {P : Prop} {text : Bytes} {d : Draft} {c : Chunk}
    (h : DescribesIff P text Assembly.start (.done d)) :
    parse text = .ok c ↔ P ∧ d.finish = .ok c := by
  by_cases hP : P
  · obtain ⟨shapes, hspells, hfeed⟩ := h.describes hP
    rw [parse, hfeed _ hspells.shapes_lex, Assembly.conclude]
    cases d.finish <;> simp [hP]
  · obtain ⟨shapes, hspells, hfeed⟩ := h.refuses hP
    obtain ⟨e, he⟩ := hfeed _ hspells.shapes_lex
    rw [parse, he]
    simp [Assembly.conclude, hP]

end LuaAssembly
