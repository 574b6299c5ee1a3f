import Mathlib
import LuaAssembly.Cbor.Read
import LuaAssembly.Proofs.Chunk.Fields
import LuaAssembly.Proofs.Number.Conversion

/-!
# Reading back data items

The canonical encoding of an item is read as the same item, whatever bytes follow it, as long as
the item stays within the limits of the reader; beyond the limits it is refused.  Only what is not
a number is changed: it is written in one way, so it is read as one and the same.  `GivesIff` says
at once when there is a result and which one, so both directions are carried through the parts of
an item together.
-/
namespace LuaAssembly

/-! ## Results under a condition -/

/-- There is a result exactly when `P` holds, and the result is `a`. -/
def GivesIff {α : Type} (o : Option α) (P : Prop) (a : α) : Prop :=
  ∀ b, o = some b ↔ P ∧ b = a

namespace GivesIff

variable {α β : Type} {o : Option α} {a : α} {P Q : Prop}

theorem some (a : α) : GivesIff (some a) True a := by
  intro b
  rw [Option.some.injEq, true_and, eq_comm]

theorem of_eq_some (h : o = Option.some a) : GivesIff o True a :=
  h ▸ some a

theorem none (hP : ¬P) (a : α) : GivesIff none P a := by
  intro b
  simp [hP]

theorem congr (h : GivesIff o P a) (hPQ : P ↔ Q) : GivesIff o Q a :=
  propext hPQ ▸ h

theorem eq_some (h : GivesIff o P a) (hP : P) : o = Option.some a :=
  (h a).2 ⟨hP, rfl⟩

theorem eq_none (h : GivesIff o P a) (hP : ¬P) : o = Option.none :=
  Option.eq_none_iff_forall_ne_some.2 fun b hb => hP ((h b).1 hb).1

/-- One result after another: the second is given when both conditions hold. -/
theorem bind {f : α → Option β} {b : β} (h : GivesIff o P a) (hf : GivesIff (f a) Q b) :
    GivesIff (o >>= f) (P ∧ Q) b := by
  by_cases hP : P
  · rw [h.eq_some hP]
    exact hf.congr (by simp [hP])
  · rw [h.eq_none hP]
    exact none (fun hPQ => hP hPQ.1) b

theorem map (h : GivesIff o P a) (f : α → β) : GivesIff (o.map f) P (f a) := by
  rw [Option.map_eq_bind]
  exact (h.bind (f := Option.some ∘ f) (some (f a))).congr (iff_of_eq (and_true P))

/-- A result that is given only under one more condition. -/
theorem guard [Decidable Q] (h : GivesIff o P a) :
    GivesIff (if Q then o else Option.none) (Q ∧ P) a := by
  split_ifs with hQ
  · exact h.congr (by simp [hQ])
  · exact none (fun hQP => hQ hQP.1) a

theorem mapM {f : α → Option β} {g : α → β} {P : α → Prop} {xs : List α}
    (h : ∀ x ∈ xs, GivesIff (f x) (P x) (g x)) :
    GivesIff (xs.mapM f) (∀ x ∈ xs, P x) (xs.map g) := by
  induction xs with
  | nil => exact (some []).congr (by simp)
  | cons x xs ih =>
    rw [List.forall_mem_cons] at h
    rw [List.mapM_cons, List.map_cons]
    refine (h.1.bind ((ih h.2).bind (f := fun ys => pure (g x :: ys)) (some _))).congr ?_
    rw [List.forall_mem_cons, and_true]

end GivesIff

namespace Number

/-- What is written for everything that is not a number. -/
def quiet : Number := .widen .half 0x7E00

/-- The number as it is read back. -/
def settled (v : Number) : Number :=
  if v.isNaN then quiet else v

theorem narrow_half_lt (v : Number) : v.narrow .half < 2 ^ 16 := by
  have hsign : signCode .half v.isNegative ≤ 2 ^ 15 := by
    cases v.isNegative <;> decide
  have hinf : BinaryFormat.half.infinity = 2 ^ 15 - 2 ^ 10 := by decide
  cases h : v.isNaN with
  | true =>
    rw [narrow_of_isNaN _ h, show BinaryFormat.half.fractionBits - 1 = 9 by decide]
    omega
  | false =>
    obtain ⟨magnitude, hle, hnarrow⟩ := narrow_of_not_isNaN .half h
    omega

end Number

namespace Cbor

/-! ## Heads -/

theorem toNat_firstByte (m : Major) {info : Nat} (hinfo : info < 32) :
    (firstByte m info).toNat = 32 * m.number + info := by
  have hm : m.number < 8 := by cases m <;> decide
  rw [firstByte, UInt8.toNat_ofNat']
  omega

theorem Head.read?_short (m : Major) {n : Nat} (hn : n < 24) (rest : Bytes) :
    Head.read? (firstByte m n :: rest) = some (⟨m, n, n⟩, rest) := by
  have hbyte := toNat_firstByte m (show n < 32 by omega)
  have hdiv : (firstByte m n).toNat / 32 = m.number := by omega
  have hmod : (firstByte m n).toNat % 32 = n := by omega
  simp only [Head.read?, hdiv, hmod, Major.ofNumber_number, if_pos hn]

/-- A head whose number takes `2 ^ k` bytes of its own. -/
theorem Head.read?_long (m : Major) {k x : Nat} (hk : k < 4) (hx : x < 256 ^ 2 ^ k)
    (hwaste : m = .other → k ≠ 0) (rest : Bytes) :
    Head.read? (firstByte m (24 + k) :: (bigEndian (2 ^ k) x ++ rest)) =
      some (⟨m, 24 + k, x⟩, rest) := by
  have hbyte := toNat_firstByte m (show 24 + k < 32 by omega)
  have hdiv : (firstByte m (24 + k)).toNat / 32 = m.number := by omega
  have hmod : (firstByte m (24 + k)).toNat % 32 = 24 + k := by omega
  have hsplit := Bytes.splitAt?_append (bigEndian (2 ^ k) x) rest
  rw [bigEndian, Sized.length_write] at hsplit
  have hread : Sized.read .big (Sized.write .big (2 ^ k) x) = x := by
    rw [Sized.read_write, Nat.mod_eq_of_lt hx]
  have hnot : Head.isWasteful ⟨m, 24 + k, x⟩ = false := by
    rw [isWasteful, Bool.and_eq_false_iff, Bool.and_eq_false_iff]
    by_cases hm : m = .other
    · exact .inl (.inr (by simpa using hwaste hm))
    · exact .inl (.inl (by simpa using hm))
  simp only [Head.read?, hdiv, hmod, Major.ofNumber_number, if_neg (show ¬24 + k < 24 by omega),
    if_pos (show 24 + k < 28 by omega), Nat.add_sub_cancel_left, bigEndian, hsplit, hread, hnot]
  rfl

/-- The head of an item is read back; the information in it is never that of an open item. -/
theorem Head.read?_head {m : Major} {n : Nat} (hn : n < 2 ^ 64) (hsimple : m = .other → n < 24)
    (rest : Bytes) : ∃ info, (n < 24 → info = n) ∧ info ≠ Head.openEnded ∧
      Head.read? (head m n ++ rest) = some (⟨m, info, n⟩, rest) := by
  rw [head]
  split_ifs with h₀ h₁ h₂ h₃
  · exact ⟨n, fun _ => rfl, by rw [openEnded]; omega, read?_short m h₀ rest⟩
  all_goals
    have hother : m ≠ .other := fun hm => h₀ (hsimple hm)
  · exact ⟨24, fun h => absurd h h₀, by decide,
      read?_long m (k := 0) (by decide) (by omega) (fun hm => absurd hm hother) rest⟩
  · exact ⟨25, fun h => absurd h h₀, by decide,
      read?_long m (k := 1) (by decide) (by omega) (fun hm => absurd hm hother) rest⟩
  · exact ⟨26, fun h => absurd h h₀, by decide,
      read?_long m (k := 2) (by decide) (by omega) (fun hm => absurd hm hother) rest⟩
  · exact ⟨27, fun h => absurd h h₀, by decide,
      read?_long m (k := 3) (by decide) (by omega) (fun hm => absurd hm hother) rest⟩

/-! ## Items -/

namespace Item

mutual

/-- The item as it is read back. -/
def settled : Item → Item
  | .array items => .array (settledAll items)
  | .map items => .map (settledAll items)
  | .tag n content => .tag n (settled content)
  | .float v => .float v.settled
  | item => item

/-- The items as they are read back. -/
def settledAll : List Item → List Item
  | [] => []
  | item :: items => settled item :: settledAll items

end

theorem settledAll_eq_map (items : List Item) : settledAll items = items.map settled := by
  induction items with
  | nil => rfl
  | cons item items ih => rw [settledAll, ih, List.map_cons]

mutual

/-- Arrays and maps are nested at most `levels` deep, and none of them has more elements than the
reader takes. -/
def Within (levels : Nat) : Item → Prop
  | .array items => 0 < levels ∧ items.length ≤ maxElements ∧ WithinAll (levels - 1) items
  | .map items => 0 < levels ∧ items.length / 2 ≤ maxElements ∧ WithinAll (levels - 1) items
  | .tag _ content => Within levels content
  | _ => True

/-- All of the items are within these limits. -/
def WithinAll (levels : Nat) : List Item → Prop
  | [] => True
  | item :: items => Within levels item ∧ WithinAll levels items

end

mutual

/-- Whether the item is within these limits. -/
def Within.decide (levels : Nat) : (item : Item) → Decidable (item.Within levels)
  | .array items =>
    have := WithinAll.decide (levels - 1) items
    inferInstanceAs
      (Decidable (0 < levels ∧ items.length ≤ maxElements ∧ WithinAll (levels - 1) items))
  | .map items =>
    have := WithinAll.decide (levels - 1) items
    inferInstanceAs
      (Decidable (0 < levels ∧ items.length / 2 ≤ maxElements ∧ WithinAll (levels - 1) items))
  | .tag _ content => Within.decide levels content
  | .unsigned _ | .negative _ | .bytes _ | .text _ | .simple _ | .float _ => isTrue trivial

/-- Whether all of the items are within these limits. -/
def WithinAll.decide (levels : Nat) : (items : List Item) → Decidable (WithinAll levels items)
  | [] => isTrue trivial
  | item :: items =>
    have := Within.decide levels item
    have := WithinAll.decide levels items
    inferInstanceAs (Decidable (item.Within levels ∧ WithinAll levels items))

end

instance (levels : Nat) (item : Item) : Decidable (item.Within levels) :=
  Within.decide levels item

theorem withinAll_iff {levels : Nat} {items : List Item} :
    WithinAll levels items ↔ ∀ x ∈ items, x.Within levels := by
  induction items with
  | nil => simp [WithinAll]
  | cons item items ih => rw [WithinAll, ih, List.forall_mem_cons]

/-- An item without tags.  Its strings are in one piece, its maps have a value for every key, and
all of its numbers and lengths can be written in eight bytes. -/
inductive Plain : Item → Prop
  | unsigned {n : Nat} (hn : n < 2 ^ 64) : Plain (.unsigned n)
  | negative {n : Nat} (hn : n < 2 ^ 64) : Plain (.negative n)
  | bytes {s : Bytes} (hs : s.length < 2 ^ 64) : Plain (.bytes [s])
  | text {s : Bytes} (hs : s.length < 2 ^ 64) : Plain (.text [s])
  | array {items : List Item} (hlength : items.length < 2 ^ 64) (hitems : ∀ x ∈ items, Plain x) :
    Plain (.array items)
  | map {items : List Item} (hlength : items.length < 2 ^ 64) (heven : 2 ∣ items.length)
    (hitems : ∀ x ∈ items, Plain x) : Plain (.map items)
  | simple {n : Nat} (hn : n < 24) : Plain (.simple n)
  | float (v : Number) : Plain (.float v)

end Item

open Item

/-- A string of known length is read in one piece. -/
theorem chunks?_append {h : Head} (hopen : h.info ≠ Head.openEnded) {s : Bytes}
    (hs : h.value = s.length) (rest : Bytes) : chunks? h (s ++ rest) = some ([s], rest) := by
  have hclosed : h.isOpen = false := decide_eq_false hopen
  rw [chunks?, hclosed, hs, Bytes.splitAt?_append]
  rfl

/-- Items one after the other are read back when each of them is. -/
theorem givesIff_itemsOnto {read : Bytes → Option (Item × Bytes)} {P : Item → Prop}
    {xs : List Item}
    (h : ∀ x ∈ xs, ∀ rest, GivesIff (read (encode x ++ rest)) (P x) (x.settled, rest))
    (acc : List Item) (rest : Bytes) :
    GivesIff (itemsOnto read xs.length acc (encodeAll xs ++ rest)) (∀ x ∈ xs, P x)
      (acc.reverse ++ settledAll xs, rest) := by
  induction xs generalizing acc with
  | nil =>
    rw [settledAll, List.append_nil]
    exact (GivesIff.some _).congr (by simp)
  | cons x xs ih =>
    rw [List.forall_mem_cons] at h
    have hread := h.1 (encodeAll xs ++ rest)
    rw [List.forall_mem_cons, List.length_cons, encodeAll, List.append_assoc, itemsOnto]
    by_cases hx : P x
    · rw [hread.eq_some hx]
      have hrest := ih h.2 (x.settled :: acc)
      rw [List.reverse_cons, List.append_assoc, List.singleton_append] at hrest
      exact hrest.congr (by simp [hx])
    · rw [hread.eq_none hx]
      exact .none (fun hall => hx hall.1) _

/-- What follows the head of an array or a map is read back when there are not too many elements
and each of them is. -/
theorem givesIff_elements? {read : Bytes → Option (Item × Bytes)} {P : Item → Prop}
    {xs : List Item} (perElement : Nat) {h : Head} (hopen : h.info ≠ Head.openEnded)
    (hvalue : perElement * h.value = xs.length)
    (hread : ∀ x ∈ xs, ∀ rest, GivesIff (read (encode x ++ rest)) (P x) (x.settled, rest))
    (rest : Bytes) :
    GivesIff (elements? read perElement h (encodeAll xs ++ rest))
      (h.value ≤ maxElements ∧ ∀ x ∈ xs, P x) (settledAll xs, rest) := by
  have hclosed : h.isOpen = false := decide_eq_false hopen
  rw [elements?, hclosed, hvalue]
  exact (givesIff_itemsOnto hread [] rest).guard

/-- A floating-point number of `2 ^ k` bytes. -/
theorem item?_wide {k x : Nat} (hk : k < 4) (hpos : k ≠ 0) (hx : x < 256 ^ 2 ^ k)
    (fuel levels : Nat) (tagged : Bool) (rest : Bytes) :
    item? (fuel + 1) levels tagged (firstByte .other (24 + k) :: (bigEndian (2 ^ k) x ++ rest)) =
      some (otherItem ⟨.other, 24 + k, x⟩, rest) := by
  rw [item?, Head.read?_long .other hk hx (fun _ => hpos) rest]

/-- A floating-point number is read back from the format that keeps it. -/
theorem item?_float (v : Number) (fuel levels : Nat) (tagged : Bool) (rest : Bytes) :
    item? (fuel + 1) levels tagged (float v ++ rest) = some (.float v.settled, rest) := by
  rw [float, Number.settled]
  split_ifs with hnan hhalf hsingle
  · exact item?_wide (k := 1) (x := 0x7E00) (by decide) (by decide) (by decide) ..
  · refine (item?_wide (k := 1) (by decide) (by decide) v.narrow_half_lt ..).trans ?_
    rw [show otherItem _ = .float (.widen .half (v.narrow .half)) from rfl,
      of_decide_eq_true hhalf]
  · refine (item?_wide (k := 2) (by decide) (by decide) v.narrow_single_lt ..).trans ?_
    rw [show otherItem _ = .float (.widen .single (v.narrow .single)) from rfl,
      of_decide_eq_true hsingle]
  · refine (item?_wide (k := 3) (by decide) (by decide) v.bits.isLt ..).trans ?_
    rw [show otherItem _ = .float ⟨BitVec.ofNat 64 v.bits.toNat⟩ from rfl, BitVec.ofNat_toNat,
      BitVec.setWidth_eq]

/-- The encoding of an item is read as the item, and exactly when the item is within the limits. -/
theorem Item.Plain.givesIff_item? {x : Item} (hx : x.Plain) {fuel levels : Nat}
    (hfuel : levels ≤ fuel) (tagged : Bool) (rest : Bytes) :
    GivesIff (item? (fuel + 1) levels tagged (encode x ++ rest)) (x.Within levels)
      (x.settled, rest) := by
  -- The induction is on the item, with any number of levels still allowed.  Only what is inside an
  -- array or a map needs more fuel than the item itself.
  induction hx generalizing fuel levels tagged rest with
  | @unsigned n hn =>
    obtain ⟨info, -, -, hhead⟩ := Head.read?_head (m := .unsigned) hn nofun rest
    rw [encode, item?, hhead]
    exact .some _
  | @negative n hn =>
    obtain ⟨info, -, -, hhead⟩ := Head.read?_head (m := .negative) hn nofun rest
    rw [encode, item?, hhead]
    exact .some _
  | @bytes s hs =>
    obtain ⟨info, -, hopen, hhead⟩ := Head.read?_head (m := .bytes) hs nofun (s ++ rest)
    rw [encode, List.flatten_singleton, List.append_assoc, item?, hhead]
    simp only [chunks?_append (h := ⟨_, info, s.length⟩) hopen rfl]
    exact .some _
  | @text s hs =>
    obtain ⟨info, -, hopen, hhead⟩ := Head.read?_head (m := .text) hs nofun (s ++ rest)
    rw [encode, List.flatten_singleton, List.append_assoc, item?, hhead]
    simp only [chunks?_append (h := ⟨_, info, s.length⟩) hopen rfl]
    exact .some _
  | @array items hlength _ ih =>
    obtain ⟨info, -, hopen, hhead⟩ :=
      Head.read?_head (m := .array) hlength nofun (encodeAll items ++ rest)
    rw [encode, List.append_assoc, item?, hhead, settled, Within, withinAll_iff]
    cases levels with
    | zero => exact .none (fun hwithin => absurd hwithin.1 (Nat.lt_irrefl 0)) _
    | succ levels =>
      obtain ⟨fuel, rfl⟩ := Nat.exists_eq_succ_of_ne_zero (Nat.ne_zero_of_lt hfuel)
      have helements := givesIff_elements? 1 (h := ⟨.array, info, items.length⟩)
        hopen (Nat.one_mul _)
        (fun x hx rest => ih x hx (Nat.le_of_succ_le_succ hfuel) false rest) rest
      exact (helements.map _).congr (by simp)
  | @map items hlength heven _ ih =>
    obtain ⟨info, -, hopen, hhead⟩ := Head.read?_head (m := .map)
      ((Nat.div_le_self items.length 2).trans_lt hlength) nofun (encodeAll items ++ rest)
    rw [encode, List.append_assoc, item?, hhead, settled, Within, withinAll_iff]
    cases levels with
    | zero => exact .none (fun hwithin => absurd hwithin.1 (Nat.lt_irrefl 0)) _
    | succ levels =>
      obtain ⟨fuel, rfl⟩ := Nat.exists_eq_succ_of_ne_zero (Nat.ne_zero_of_lt hfuel)
      have helements := givesIff_elements? 2 (h := ⟨.map, info, items.length / 2⟩)
        hopen (Nat.mul_div_cancel' heven)
        (fun x hx rest => ih x hx (Nat.le_of_succ_le_succ hfuel) false rest) rest
      exact (helements.map _).congr (by simp)
  | @simple n hn =>
    obtain ⟨info, hinfo, -, hhead⟩ :=
      Head.read?_head (m := .other) (hn.trans (by decide)) (fun _ => hn) rest
    obtain rfl := hinfo hn
    have hother : otherItem ⟨.other, info, info⟩ = .simple info := by
      rw [otherItem, if_neg (by simp only; omega), if_neg (by simp only; omega),
        if_neg (by simp only; omega)]
    rw [encode, item?, hhead]
    simp only [hother]
    exact .some _
  | float v =>
    rw [encode, item?_float]
    exact .some _

/-- The encoding of a single item is read as the item, and exactly when the item is within the
limits of the reader. -/
theorem Item.Plain.givesIff_decode? {x : Item} (hx : x.Plain) :
    GivesIff (decode? (encode x)) (x.Within maxLevels) x.settled := by
  have hread := hx.givesIff_item? (show maxLevels ≤ 2 * maxLevels + 1 by decide) false []
  rw [List.append_nil] at hread
  by_cases hwithin : x.Within maxLevels
  · rw [decode?, hread.eq_some hwithin]
    exact (GivesIff.some _).congr (by simp [hwithin])
  · rw [decode?, hread.eq_none hwithin]
    exact .none hwithin _

end Cbor

end LuaAssembly
