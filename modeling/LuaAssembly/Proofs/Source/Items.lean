import Mathlib
import LuaAssembly.Proofs.Source.Literal

/-!
# The items of a literal

What stands between the quotes of a literal is a sequence of items, and each item denotes one byte.
An item is a byte that stands for itself, a backslash with one further byte, `\x` with two
hexadecimal digits, or a backslash with decimal digits, as many as there are up to three.  Only the
last rule looks at what follows the item.

The main statement is that reading succeeds on exactly the texts that are made of items, that it
gives the bytes that the items denote, and that a text is made of items in one way only.
-/
namespace LuaAssembly.Literal

open Numeral (Digits valueOnto)

/-! ## Items -/

/-- A hexadecimal digit of either case. -/
inductive HexDigit where
  /-- One of `0` to `9`. -/
  | decimal (v : Fin 10)
  /-- One of `a` to `f`. -/
  | lower (v : Fin 6)
  /-- One of `A` to `F`. -/
  | upper (v : Fin 6)
  deriving DecidableEq

namespace HexDigit

/-- The digit as it is written. -/
def text : HexDigit → UInt8
  | .decimal v => UInt8.ofNat (0x30 + v)
  | .lower v => UInt8.ofNat (0x61 + v)
  | .upper v => UInt8.ofNat (0x41 + v)

/-- What the digit is worth. -/
def value : HexDigit → Nat
  | .decimal v => v
  | .lower v => 10 + v
  | .upper v => 10 + v

end HexDigit

/-- The bytes that may follow a backslash on their own, each with the byte that the two denote. -/
def shortEscapes : List (UInt8 × UInt8) :=
  [(0x61, 0x07), (0x62, 0x08), (0x66, 0x0C), (0x6E, 0x0A), (0x72, 0x0D), (0x74, 0x09),
    (0x76, 0x0B), (0x5C, 0x5C), (0x22, 0x22), (0x27, 0x27)]

/-- One to three decimal digits that are worth at most 255. -/
structure IsRun (ds : Bytes) : Prop where
  digits : Digits ds
  nonempty : ds ≠ []
  length : ds.length ≤ 3
  value : valueOnto 0 ds ≤ 255

/-- An item of a literal. -/
inductive Item where
  | plain (b : UInt8) (hquote : b ≠ 0x22) (hslash : b ≠ 0x5C)
  /-- A backslash and the byte `e`, which denote `b`. -/
  | short (e b : UInt8) (h : (e, b) ∈ shortEscapes)
  /-- A backslash, `x` and two hexadecimal digits. -/
  | hex (hi lo : HexDigit)
  | decimal (ds : Bytes) (h : IsRun ds)

namespace Item

/-- The item as it is written. -/
def text : Item → Bytes
  | .plain b _ _ => [b]
  | .short e _ _ => [0x5C, e]
  | .hex hi lo => [0x5C, 0x78, hi.text, lo.text]
  | .decimal ds _ => 0x5C :: ds

/-- The byte that the item denotes. -/
def byte : Item → UInt8
  | .plain b _ _ => b
  | .short _ b _ => b
  | .hex hi lo => UInt8.ofNat (16 * hi.value + lo.value)
  | .decimal ds _ => UInt8.ofNat (valueOnto 0 ds)

/-- The item ends where `rest` follows it: there are no more digits, or there are three already. -/
def Stops : Item → Bytes → Prop
  | .decimal ds _, rest => ds.length = 3 ∨ ∀ b ∈ rest.head?, ¬Bytes.isDigit b
  | _, _ => True

end Item

/-- The text is made of the items, one after the other. -/
inductive MadeOf : List Item → Bytes → Prop where
  | nil : MadeOf [] []
  | cons {item : Item} {items : List Item} {rest : Bytes} (hstops : item.Stops rest)
    (h : MadeOf items rest) : MadeOf (item :: items) (item.text ++ rest)

/-- The text is made of the items, between two quotes. -/
def QuotedOf (items : List Item) (lit : Bytes) : Prop :=
  ∃ body, MadeOf items body ∧ lit = 0x22 :: (body ++ [0x22])

/-! ## Reading an item -/

theorem simpleEscape?_eq_some_iff {e b : UInt8} :
    simpleEscape? e = some b ↔ (e, b) ∈ shortEscapes := by
  constructor
  · intro h
    rw [simpleEscape?] at h
    split_ifs at h with h₁ h₂ h₃ h₄ h₅ h₆ h₇ h₈
    all_goals obtain rfl := Option.some.inj h
    · simp [shortEscapes, h₁]
    · simp [shortEscapes, h₂]
    · simp [shortEscapes, h₃]
    · simp [shortEscapes, h₄]
    · simp [shortEscapes, h₅]
    · simp [shortEscapes, h₆]
    · simp [shortEscapes, h₇]
    · rcases h₈ with rfl | rfl | rfl <;> simp [shortEscapes]
  · intro h
    simp only [shortEscapes, List.mem_cons, Prod.mk.injEq, List.not_mem_nil, or_false] at h
    rcases h with ⟨rfl, rfl⟩ | ⟨rfl, rfl⟩ | ⟨rfl, rfl⟩ | ⟨rfl, rfl⟩ | ⟨rfl, rfl⟩ | ⟨rfl, rfl⟩ |
      ⟨rfl, rfl⟩ | ⟨rfl, rfl⟩ | ⟨rfl, rfl⟩ | ⟨rfl, rfl⟩ <;> rfl

theorem hexValue?_eq_some_iff {b : UInt8} {v : Nat} :
    Bytes.hexValue? b = some v ↔ ∃ d : HexDigit, d.text = b ∧ d.value = v := by
  constructor
  · intro h
    have hbyte : ∀ {n : Nat}, n = b.toNat → UInt8.ofNat n = b := by
      rintro n rfl
      exact UInt8.ofNat_toNat
    simp only [Bytes.hexValue?, UInt8.le_iff_toNat_le, UInt8.reduceToNat] at h
    split_ifs at h with hdecimal hlower hupper
    all_goals obtain rfl := Option.some.inj h
    · exact ⟨.decimal ⟨b.toNat - 0x30, by omega⟩, hbyte (Nat.add_sub_of_le hdecimal.1), rfl⟩
    · exact ⟨.lower ⟨b.toNat - 0x61, by omega⟩, hbyte (Nat.add_sub_of_le hlower.1),
        Nat.add_comm ..⟩
    · exact ⟨.upper ⟨b.toNat - 0x41, by omega⟩, hbyte (Nat.add_sub_of_le hupper.1),
        Nat.add_comm ..⟩
  · rintro ⟨d, rfl, rfl⟩
    cases d with
    | decimal v => revert v; decide
    | lower v => revert v; decide
    | upper v => revert v; decide

theorem hexEscape_text (hi lo : HexDigit) :
    hexEscape hi.text lo.text = .ok (UInt8.ofNat (16 * hi.value + lo.value)) := by
  rw [hexEscape, hexValue?_eq_some_iff.2 ⟨hi, rfl, rfl⟩, hexValue?_eq_some_iff.2 ⟨lo, rfl, rfl⟩,
    Nat.mul_comm]

theorem hexEscape_cases (hi lo : UInt8) :
    (∃ h l : HexDigit, h.text = hi ∧ l.text = lo) ∨ hexEscape hi lo = .error .invalidHex := by
  rw [hexEscape]
  cases hhi : Bytes.hexValue? hi with
  | none => exact .inr rfl
  | some v =>
    cases hlo : Bytes.hexValue? lo with
    | none => exact .inr rfl
    | some w =>
      obtain ⟨h, hh, -⟩ := hexValue?_eq_some_iff.1 hhi
      obtain ⟨l, hl, -⟩ := hexValue?_eq_some_iff.1 hlo
      exact .inl ⟨h, l, hh, hl⟩

theorem decimalEscape_eq {ds : Bytes} (h : IsRun ds) :
    decimalEscape ds = .ok (UInt8.ofNat (valueOnto 0 ds)) :=
  if_pos h.value

theorem isRun_or_error {ds : Bytes} (hdigits : Digits ds) (hne : ds ≠ [])
    (hlength : ds.length ≤ 3) : IsRun ds ∨ decimalEscape ds = .error (.escapeTooLarge ds) := by
  by_cases hvalue : valueOnto 0 ds ≤ 255
  · exact .inl ⟨hdigits, hne, hlength, hvalue⟩
  · exact .inr (if_neg hvalue)

/-- No digit is one of the other bytes that may follow a backslash. -/
theorem simpleEscape?_of_isDigit {d : UInt8} (hd : Bytes.isDigit d) :
    simpleEscape? d = none ∧ d ≠ 0x78 := by
  rw [Numeral.isDigit_iff] at hd
  have hdigit := simpleEscape?_digit (d.toNat - 0x30) (by omega)
  have hd' : Numeral.digit (d.toNat - 0x30) = d := by
    rw [← UInt8.toNat_inj, Numeral.digit_toNat (by omega)]
    omega
  rwa [hd'] at hdigit

/-- Decimal digits are read up to the third, or up to a byte that is none. -/
theorem unescape_digits {ds rest : Bytes} (h : IsRun ds)
    (hstops : ds.length = 3 ∨ ∀ b ∈ rest.head?, ¬Bytes.isDigit b) :
    unescape (0x5C :: (ds ++ rest)) = consByte (decimalEscape ds) (unescape rest) := by
  obtain ⟨hdigits, hne, hlength, -⟩ := h
  obtain ⟨d₁, ds, rfl⟩ := List.exists_cons_of_ne_nil hne
  obtain ⟨hsimple, hx⟩ := simpleEscape?_of_isDigit hdigits.head
  have h₁ := hdigits.head
  rw [List.cons_append, unescape.eq_def]
  rcases ds with _ | ⟨d₂, _ | ⟨d₃, _ | ⟨d₄, ds⟩⟩⟩
  · cases rest with
    | nil => simp [hsimple, hx, h₁, unescape]
    | cons b rest =>
      have hb : ¬Bytes.isDigit b := by simpa using hstops
      simp [hsimple, hx, h₁, hb]
  · have h₂ := hdigits.tail.head
    cases rest with
    | nil => simp [hsimple, hx, h₁, h₂, unescape]
    | cons b rest =>
      have hb : ¬Bytes.isDigit b := by simpa using hstops
      simp [hsimple, hx, h₁, h₂, hb]
  · simp [hsimple, hx, h₁, hdigits.tail.head, hdigits.tail.tail.head]
  · simp only [List.length_cons] at hlength
    omega

/-- An item is read as the byte that it denotes. -/
theorem unescape_text {item : Item} {rest : Bytes} (h : item.Stops rest) :
    unescape (item.text ++ rest) = consByte (.ok item.byte) (unescape rest) := by
  cases item with
  | plain b hquote hslash =>
    rw [Item.text, List.singleton_append, unescape.eq_def]
    simp only [hquote, if_false, if_pos hslash, Item.byte]
  | short e b hmem =>
    rw [Item.text, List.cons_append, List.singleton_append, unescape.eq_def]
    simp [simpleEscape?_eq_some_iff.2 hmem, Item.byte]
  | hex hi lo =>
    have hx : simpleEscape? 0x78 = none := rfl
    simp only [Item.text, List.cons_append, List.nil_append, Item.byte, ← hexEscape_text]
    rw [unescape.eq_def]
    simp [hx]
  | decimal ds hrun =>
    rw [Item.text, List.cons_append, unescape_digits hrun h, decimalEscape_eq hrun, Item.byte]

/-- A backslash and digits are an item, unless the digits are worth too much. -/
theorem exists_item_of_digits (ds rest : Bytes) (hdigits : Digits ds) (hne : ds ≠ [])
    (hlength : ds.length ≤ 3) (hstops : ds.length = 3 ∨ ∀ b ∈ rest.head?, ¬Bytes.isDigit b)
    (tail : Except Malformed Bytes) :
    (∃ (item : Item) (rest' : Bytes), item.Stops rest' ∧
        0x5C :: (ds ++ rest) = item.text ++ rest') ∨
      ∃ e, e ≠ .unescapedQuote ∧ consByte (decimalEscape ds) tail = .error e := by
  rcases isRun_or_error hdigits hne hlength with hrun | herror
  · exact .inl ⟨.decimal ds hrun, rest, hstops, rfl⟩
  · refine .inr ⟨.escapeTooLarge ds, ?_, by rw [herror, consByte]⟩
    rintro ⟨⟩

/-- What the inside of a literal can start with: nothing, a quote, an item, or else something that
cannot be read whatever follows. -/
theorem unescape_cases (body : Bytes) :
    body = [] ∨ (∃ rest, body = 0x22 :: rest) ∨
      (∃ (item : Item) (rest : Bytes), item.Stops rest ∧ body = item.text ++ rest) ∨
      ∃ e, e ≠ .unescapedQuote ∧ unescape body = .error e := by
  fun_cases unescape body with
  | case1 => exact .inl rfl
  | case2 rest => exact .inr (.inl ⟨rest, rfl⟩)
  | case3 c rest hquote hslash =>
    exact .inr (.inr (.inl ⟨.plain c hquote hslash, rest, trivial, rfl⟩))
  | case4 => exact .inr (.inr (.inr ⟨.unterminatedEscape, by rintro ⟨⟩, rfl⟩))
  | case5 c _ hslash e rest b he =>
    obtain rfl := not_not.1 hslash
    exact .inr (.inr (.inl ⟨.short e b (simpleEscape?_eq_some_iff.1 he), rest, trivial, rfl⟩))
  | case6 c _ hslash hi lo rest _ =>
    obtain rfl := not_not.1 hslash
    rcases hexEscape_cases hi lo with ⟨h, l, rfl, rfl⟩ | herror
    · exact .inr (.inr (.inl ⟨.hex h l, rest, trivial, rfl⟩))
    · exact .inr (.inr (.inr ⟨.invalidHex, by rintro ⟨⟩, by rw [herror, consByte]⟩))
  | case7 => exact .inr (.inr (.inr ⟨.shortHex, by rintro ⟨⟩, rfl⟩))
  | case8 c _ hslash e _ _ he d hd d' rest hd' =>
    -- three digits, and with fewer of them what ends the run
    obtain rfl := not_not.1 hslash
    have hdigits : Digits [e, d, d'] := by simp [Digits, he, hd, hd']
    exact .inr (.inr (exists_item_of_digits [e, d, d'] rest hdigits (by simp) le_rfl (.inl rfl) _))
  | case9 c _ hslash e _ _ he d hd d' rest hd' =>
    obtain rfl := not_not.1 hslash
    have hdigits : Digits [e, d] := by simp [Digits, he, hd]
    exact .inr (.inr (exists_item_of_digits [e, d] (d' :: rest) hdigits (by simp) (by simp)
      (by simpa using hd') _))
  | case10 c _ hslash e _ _ he d hd =>
    obtain rfl := not_not.1 hslash
    have hdigits : Digits [e, d] := by simp [Digits, he, hd]
    exact .inr (.inr (exists_item_of_digits [e, d] [] hdigits (by simp) (by simp) (by simp) _))
  | case11 c _ hslash e _ _ he d rest hd =>
    obtain rfl := not_not.1 hslash
    have hdigits : Digits [e] := by simp [Digits, he]
    exact .inr (.inr (exists_item_of_digits [e] (d :: rest) hdigits (by simp) (by simp)
      (by simpa using hd) _))
  | case12 c _ hslash e _ _ he =>
    obtain rfl := not_not.1 hslash
    have hdigits : Digits [e] := by simp [Digits, he]
    exact .inr (.inr (exists_item_of_digits [e] [] hdigits (by simp) (by simp) (by simp) _))
  | case13 c _ _ e => exact .inr (.inr (.inr ⟨.invalidEscape e, by rintro ⟨⟩, rfl⟩))

theorem unescape_quote (rest : Bytes) : unescape (0x22 :: rest) = .error .unescapedQuote := by
  rw [unescape.eq_def]
  rfl

theorem Item.text_ne_nil (item : Item) : item.text ≠ [] := by
  cases item <;> exact List.cons_ne_nil _ _

/-- Following how the inside of a literal is read, item by item: up to its end, up to a quote, or up
to something that cannot be read. -/
@[elab_as_elim]
theorem unescape_induction {P : Bytes → Prop} (nil : P []) (quote : ∀ rest, P (0x22 :: rest))
    (item : ∀ (item : Item) (rest : Bytes), item.Stops rest → P rest → P (item.text ++ rest))
    (stuck : ∀ body e, e ≠ .unescapedQuote → unescape body = .error e → P body) (body : Bytes) :
    P body := by
  -- Behind an item the rest is shorter.
  induction hlength : body.length using Nat.strong_induction_on generalizing body with
  | _ n ih =>
    rcases unescape_cases body with rfl | ⟨rest, rfl⟩ | ⟨first, rest, hstops, rfl⟩ | ⟨e, he, herror⟩
    · exact nil
    · exact quote rest
    · have hlt : rest.length < n := by
        rw [← hlength, List.length_append]
        exact Nat.lt_add_of_pos_left (List.length_pos_iff.2 first.text_ne_nil)
      exact item first rest hstops (ih _ hlt rest rfl)
    · exact stuck body e he herror

theorem consByte_eq_ok_iff {b : UInt8} {r : Except Malformed Bytes} {s : Bytes} :
    consByte (.ok b) r = .ok s ↔ ∃ s', r = .ok s' ∧ s = b :: s' := by
  cases r with
  | error e => simp [consByte]
  | ok s' => simp [consByte, eq_comm]

/-- Items are read as the bytes that they denote. -/
theorem MadeOf.unescape_eq {items : List Item} {body : Bytes} (h : MadeOf items body) :
    unescape body = .ok (items.map Item.byte) := by
  induction h with
  | nil => rfl
  | cons hstops _ ih => rw [unescape_text hstops, ih, consByte, List.map_cons]

/-- What is read is made of items. -/
theorem exists_madeOf {body s : Bytes} (h : unescape body = .ok s) :
    ∃ items, MadeOf items body := by
  induction body using unescape_induction generalizing s with
  | nil => exact ⟨[], .nil⟩
  | quote rest =>
    rw [unescape_quote] at h
    cases h
  | item item rest hstops ih =>
    rw [unescape_text hstops, consByte_eq_ok_iff] at h
    obtain ⟨s', hs', -⟩ := h
    obtain ⟨items, hitems⟩ := ih hs'
    exact ⟨item :: items, .cons hstops hitems⟩
  | stuck body e _ herror =>
    rw [herror] at h
    cases h

/-! ## One decomposition -/

theorem HexDigit.text_injective : Function.Injective HexDigit.text := by
  rintro (v | v | v) (w | w | w) h
  all_goals
    revert v w
    decide

/-- There are no more digits where a run of digits stops. -/
theorem eq_nil_of_digits {ds more rest : Bytes} (hdigits : Digits (ds ++ more))
    (hlength : (ds ++ more).length ≤ 3)
    (hstops : ds.length = 3 ∨ ∀ b ∈ (more ++ rest).head?, ¬Bytes.isDigit b) : more = [] := by
  cases more with
  | nil => rfl
  | cons b more =>
    rcases hstops with hthree | hstops
    · rw [List.length_append, List.length_cons] at hlength
      omega
    · exact absurd (hdigits b (by simp)) (hstops b rfl)

/-- The byte behind the backslash tells digits from all else. -/
theorem IsRun.head_spec {ds rest rest' : Bytes} {e : UInt8} (h : IsRun ds)
    (heq : e :: rest = ds ++ rest') : simpleEscape? e = none ∧ e ≠ 0x78 := by
  obtain ⟨d, ds, rfl⟩ := List.exists_cons_of_ne_nil h.nonempty
  obtain ⟨rfl, -⟩ := List.cons.inj heq
  exact simpleEscape?_of_isDigit h.digits.head

/-- A text starts with one item only. -/
theorem Item.text_unique {item item' : Item} {rest rest' : Bytes} (h : item.Stops rest)
    (h' : item'.Stops rest') (heq : item.text ++ rest = item'.text ++ rest') :
    item = item' ∧ rest = rest' := by
  cases item with
  | plain b hquote hslash =>
    cases item' with
    | plain b' =>
      obtain ⟨rfl, rfl⟩ := List.cons.inj heq
      exact ⟨rfl, rfl⟩
    | short | hex | decimal => exact absurd (List.cons.inj heq).1 hslash
  | short e b hmem =>
    have he := simpleEscape?_eq_some_iff.2 hmem
    cases item' with
    | plain b' hquote' hslash' => exact absurd (List.cons.inj heq).1.symm hslash'
    | short e' b' hmem' =>
      obtain ⟨rfl, rfl⟩ := List.cons.inj (List.cons.inj heq).2
      obtain rfl := Option.some.inj (he.symm.trans (simpleEscape?_eq_some_iff.2 hmem'))
      exact ⟨rfl, rfl⟩
    | hex hi' lo' =>
      obtain ⟨rfl, -⟩ := List.cons.inj (List.cons.inj heq).2
      cases he
    | decimal ds' hrun' =>
      rw [(hrun'.head_spec (List.cons.inj heq).2).1] at he
      cases he
  | hex hi lo =>
    cases item' with
    | plain b' hquote' hslash' => exact absurd (List.cons.inj heq).1.symm hslash'
    | short e' b' hmem' =>
      have he' := simpleEscape?_eq_some_iff.2 hmem'
      obtain ⟨rfl, -⟩ := List.cons.inj (List.cons.inj heq).2
      cases he'
    | hex hi' lo' =>
      obtain ⟨hhi, htail⟩ := List.cons.inj (List.cons.inj (List.cons.inj heq).2).2
      obtain ⟨hlo, rfl⟩ := List.cons.inj htail
      rw [HexDigit.text_injective hhi, HexDigit.text_injective hlo]
      exact ⟨rfl, rfl⟩
    | decimal ds' hrun' => exact absurd rfl (hrun'.head_spec (List.cons.inj heq).2).2
  | decimal ds hrun =>
    cases item' with
    | plain b' hquote' hslash' => exact absurd (List.cons.inj heq).1.symm hslash'
    | short e' b' hmem' =>
      have he' := simpleEscape?_eq_some_iff.2 hmem'
      rw [(hrun.head_spec (List.cons.inj heq).2.symm).1] at he'
      cases he'
    | hex hi' lo' => exact absurd rfl (hrun.head_spec (List.cons.inj heq).2.symm).2
    | decimal ds' hrun' =>
      rcases List.append_eq_append_iff.1 (List.cons.inj heq).2 with
        ⟨more, rfl, rfl⟩ | ⟨more, rfl, rfl⟩
      · obtain rfl := eq_nil_of_digits hrun'.digits hrun'.length h
        simp
      · obtain rfl := eq_nil_of_digits hrun.digits hrun.length h'
        simp

/-- A text is made of items in one way only. -/
theorem MadeOf.unique {items items' : List Item} {body : Bytes} (h : MadeOf items body)
    (h' : MadeOf items' body) : items = items' := by
  induction h generalizing items' with
  | nil =>
    generalize hbody : ([] : Bytes) = body at h'
    cases h' with
    | nil => rfl
    | @cons item' => exact absurd hbody.symm (by simp [item'.text_ne_nil])
  | @cons item items rest hstops _ ih =>
    generalize hbody : item.text ++ rest = body at h'
    cases h' with
    | nil => exact absurd hbody (by simp [item.text_ne_nil])
    | cons hstops' h' =>
      obtain ⟨rfl, rfl⟩ := Item.text_unique hstops hstops' hbody
      rw [ih h']

/-! ## Literals -/

theorem eq_of_body? {bs body : Bytes} (h : body? bs = some body) : bs = body ++ [0x22] := by
  fun_induction body? bs generalizing body with
  | case1 => cases h
  | case2 =>
    cases h
    rfl
  | case3 => cases h
  | case4 b bs _ ih =>
    obtain ⟨body, hbody, rfl⟩ := Option.map_eq_some_iff.1 h
    exact congrArg (b :: ·) (ih hbody)

theorem unquote_quoted (body : Bytes) : unquote (0x22 :: (body ++ [0x22])) = unescape body := by
  rw [unquote, if_pos rfl, body?_append_quote]

/-- A literal has two quotes, or reading it stops there. -/
theorem quoted_or_error (lit : Bytes) :
    (∃ body, lit = 0x22 :: (body ++ [0x22])) ∨ unquote lit = .error .notQuoted := by
  cases lit with
  | nil => exact .inr rfl
  | cons b rest =>
    rw [unquote]
    split_ifs with hb
    · cases hbody : body? rest with
      | none => exact .inr rfl
      | some body => exact .inl ⟨body, by rw [hb, eq_of_body? hbody]⟩
    · exact .inr rfl

/-- Exactly the literals are read that are made of items between two quotes.  Reading gives the
bytes that the items denote, and the items of a literal are unique. -/
theorem unquote_grammar (lit : Bytes) :
    (∀ s, unquote lit = .ok s ↔ ∃ items, QuotedOf items lit ∧ items.map Item.byte = s) ∧
      ∀ items items', QuotedOf items lit → QuotedOf items' lit → items = items' := by
  refine ⟨fun s => ⟨fun h => ?_, ?_⟩, ?_⟩
  · rcases quoted_or_error lit with ⟨body, rfl⟩ | herror
    · rw [unquote_quoted] at h
      obtain ⟨items, hitems⟩ := exists_madeOf h
      refine ⟨items, ⟨body, hitems, rfl⟩, ?_⟩
      exact Except.ok.inj (hitems.unescape_eq.symm.trans h)
    · rw [herror] at h
      cases h
  · rintro ⟨items, ⟨body, hitems, rfl⟩, rfl⟩
    rw [unquote_quoted, hitems.unescape_eq]
  · rintro items items' ⟨body, hitems, rfl⟩ ⟨body', hitems', heq⟩
    obtain rfl : body = body' := by simpa using heq
    exact hitems.unique hitems'

/-- The literal `"\0651\x4A\9z\""`: digits that follow an escape, and an escaped quote. -/
def mixedLiteral : Bytes :=
  [0x22, 0x5C, 0x30, 0x36, 0x35, 0x31, 0x5C, 0x78, 0x34, 0x41, 0x5C, 0x39, 0x7A, 0x5C, 0x22, 0x22]

theorem unquote_grammar_mixedLiteral :
    ∃ items, QuotedOf items mixedLiteral ∧
      items.map Item.byte = [0x41, 0x31, 0x4A, 0x09, 0x7A, 0x22] ∧
      ∀ items', QuotedOf items' mixedLiteral → items' = items := by
  obtain ⟨hread, hunique⟩ := unquote_grammar mixedLiteral
  have hbytes : unquote mixedLiteral = .ok [0x41, 0x31, 0x4A, 0x09, 0x7A, 0x22] := rfl
  obtain ⟨items, hitems, hbyte⟩ := (hread _).1 hbytes
  exact ⟨items, hitems, hbyte, fun items' hitems' => hunique items' items hitems' hitems⟩

end LuaAssembly.Literal
