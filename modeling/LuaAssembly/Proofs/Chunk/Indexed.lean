import Mathlib
import LuaAssembly.Proofs.Chunk.Extension
import LuaAssembly.Proofs.Chunk.Limits

/-!
# Reading chunks by position

The reader of chunks goes through a list of bytes that gets shorter.  Here the same reader works on
bytes that stay where they are, with a position in them.  Now an access can leave the bytes: a slice
or a single byte may be asked for that is not there, and the position may be set back or beyond the
end.  Each of these stops the reader with `outOfBounds`.

`Indexed.decode_eq` says that none of it ever happens: on every input the reader by position ends as
the reader of the list does.
-/
namespace LuaAssembly

namespace Indexed

/-! ## Accesses -/

/-- Why the reader stops. -/
inductive Stop where
  | problem (p : DecodeProblem)
  /-- An access leaves the bytes. -/
  | outOfBounds
  deriving DecidableEq

/-- The bytes from one place up to another. -/
def slice (bs : Bytes) (first last : Nat) : Except Stop Bytes :=
  if first ≤ last ∧ last ≤ bs.length then .ok ((bs.take last).drop first) else .error .outOfBounds

/-- The byte at a place. -/
def byteAt (bs : Bytes) (i : Nat) : Except Stop UInt8 :=
  match bs[i]? with
  | some b => .ok b
  | none => .error .outOfBounds

/-! ## Readers -/

/-- A reader of a part: from a position, it gives a value and the position behind the part. -/
abbrev Reader (α : Type) := Nat → Except Stop (α × Nat)

namespace Reader

variable {α β : Type}

/-- Reads nothing. -/
def value (a : α) : Reader α :=
  fun pos => .ok (a, pos)

/-- Reads one part and then another that may depend on it. -/
def andThen (r : Reader α) (f : α → Reader β) : Reader β :=
  fun pos =>
    match r pos with
    | .error s => .error s
    | .ok (a, pos) => f a pos

instance : Monad Reader where
  pure := value
  bind := andThen

/-- Stops with a problem. -/
def fail (p : DecodeProblem) : Reader α :=
  fun _ => .error (.problem p)

/-- The position. -/
def position : Reader Nat :=
  fun pos => .ok (pos, pos)

/-- The result of an access. -/
def access (x : Except Stop α) : Reader α :=
  fun pos => x.map (·, pos)

variable (data : Bytes)

/-- Sets the position, forward and not beyond the end. -/
def moveTo (next : Nat) : Reader Unit :=
  fun pos => if pos ≤ next ∧ next ≤ data.length then .ok ((), next) else .error .outOfBounds

/-- Makes sure that `n` bytes are left. -/
def need (part : Part) (n : Nat) : Reader Unit :=
  fun pos =>
    if data.length < pos + n then .error (.problem (.unexpectedEnd part pos)) else .ok ((), pos)

/-- Reads `n` bytes. -/
def take (part : Part) (n : Nat) : Reader Bytes := do
  need data part n
  let pos ← position
  let bs ← access (slice data pos (pos + n))
  moveTo data (pos + n)
  return bs

/-- Reads one byte. -/
def byte (part : Part) : Reader UInt8 := do
  need data part 1
  let pos ← position
  let b ← access (byteAt data pos)
  moveTo data (pos + 1)
  return b

/-- Reads `n` things of one kind. -/
def replicate (n : Nat) (r : Reader α) : Reader (List α) :=
  match n with
  | 0 => return []
  | n + 1 => do
    let x ← r
    let xs ← replicate n r
    return x :: xs

end Reader

/-! ## The parts of a chunk -/

open Reader

section

variable (data : Bytes) (h : Header)

/-- Reads a value of `size` bytes. -/
def sized (size : UInt8) (part : Part) : Reader Nat := do
  let bs ← take data part size.toNat
  return Sized.read ((ByteOrder.ofTag? h.endianness).getD .little) bs

/-- Reads a signed integer. -/
def int (part : Part) : Reader Int := do
  let x ← sized data h h.intSize part
  return Sized.signExtend h.intSize.toNat x

/-- Reads the number of elements of a list. -/
def count (part : Part) : Reader Nat := do
  let n ← int data h part
  let pos ← position
  if n < 0 ∨ Decode.maxCount < n then fail (.count part n pos) else return n.toNat

/-- Takes the zero byte off the end of a string. -/
def dropTerminator (part : Part) (bs : Bytes) : Except Stop Bytes := do
  let last ← byteAt bs (bs.length - 1)
  if last = 0 then slice bs 0 (bs.length - 1) else .error (.problem (.unterminated part))

/-- Reads a string. -/
def string (lengthPart part : Part) : Reader Bytes := do
  let n ← sized data h h.sizeTSize lengthPart
  if n = 0 then return []
  else if data.length < n then fail (.length part n)
  else
    let bs ← take data part n
    access (dropTerminator part bs)

/-- Reads a number. -/
def number (part : Part) : Reader Number := do
  let x ← sized data h h.numberSize part
  if h.integral then return .ofInt (Sized.signExtend h.numberSize.toNat x)
  else if h.numberSize = 4 then return .widen .single x
  else return ⟨BitVec.ofNat 64 x⟩

/-- Reads an instruction. -/
def instruction : Reader Word := do
  let x ← sized data h h.instructionSize .instruction
  return BitVec.ofNat 32 x

/-- Reads a constant. -/
def constant : Reader Constant := do
  let pos ← position
  let tag ← byte data .constantTag
  if tag = Constant.numberTag then return .ofNumber (← number data h .numberConstant)
  else if tag = Constant.stringTag then
    return .ofString (← string data h .stringConstantLength .stringConstant)
  else fail (.constantTag tag pos)

/-- Reads a local variable. -/
def localVar : Reader LocalVar := do
  let name ← string data h .localNameLength .localName
  let first ← int data h .localFirst
  let last ← int data h .localLast
  return ⟨name, first, last⟩

/-- Reads the upvalue names. -/
def upvalues (nups : UInt8) : Reader (List Upvalue) := do
  let n ← count data h .upvalueCount
  if n ≠ 0 ∧ n ≠ nups.toNat then fail (.upvalueNames n nups)
  else
    let names ← replicate n (string data h .upvalueNameLength .upvalueName)
    let nameless := List.replicate (nups.toNat - n) []
    return (names ++ nameless).map fun name => ⟨name, 0, false⟩

/-- Reads a function with at most `depth - 1` levels of functions nested in it. -/
def function : Nat → Reader (FunctionTree Prototype)
  | 0 => do fail (.tooDeep (← position))
  | depth + 1 => do
    let source ← string data h .sourceLength .source
    let lineDefined ← int data h .lineDefined
    let lastLineDefined ← int data h .lastLineDefined
    let nups ← byte data .upvalueTotal
    let numParams ← byte data .numParams
    let isVararg ← byte data .isVararg
    let maxStackSize ← byte data .maxStackSize
    let code ← replicate (← count data h .codeCount) (instruction data h)
    let constants ← replicate (← count data h .constantCount) (constant data h)
    let nested ← replicate (← count data h .functionCount) (function depth)
    let lines ← replicate (← count data h .lineCount) (int data h .line)
    let locals ← replicate (← count data h .localCount) (localVar data h)
    let upvalues ← upvalues data h nups
    return .node
      { source, lineDefined, lastLineDefined, numParams, isVararg, maxStackSize, code, constants,
        lines, locals, upvalues } nested

/-- Reads the header. -/
def header : Except Stop Header :=
  if data.length < Decode.headerSize then .error (.problem (.tooShort data.length))
  else do
    let found ← slice data 0 4
    if found ≠ Encode.signature then .error (.problem (.signature found))
    else
      let version ← byteAt data 4
      if version ≠ Encode.version then .error (.problem (.version version))
      else
        let h : Header :=
          { format := ← byteAt data 5
            endianness := ← byteAt data 6
            intSize := ← byteAt data 7
            sizeTSize := ← byteAt data 8
            instructionSize := ← byteAt data 9
            numberSize := ← byteAt data 10
            integral := (← byteAt data 11) ≠ 0 }
        match h.problem? with
        | some p => .error (.problem (.header p))
        | none => .ok h

/-- The chunk that bytes stand for. -/
def decode : Except Stop Chunk := do
  let h ← header data
  let (main, pos) ← function data h (Decode.maxDepth + 1) Decode.headerSize
  if pos = data.length then .ok ⟨h, main⟩
  else .error (.problem (.trailing (data.length - pos)))

end

/-! ## The two readers together -/

variable {α β : Type} {data : Bytes}

/-- The reader by position follows the reader of the list.  From a place inside the data, it reads
what that one reads off the rest of the data from there on, it stops where that one stops, and its
position stays inside the data. -/
structure Follows (data : Bytes) (r : Reader α) (d : Decoder α) : Prop where
  read : ∀ {pos a c}, pos ≤ data.length → d ⟨data.drop pos, pos⟩ = .ok (a, c) →
    r pos = .ok (a, c.pos) ∧ c.rest = data.drop c.pos ∧ c.pos ≤ data.length
  stop : ∀ {pos p}, pos ≤ data.length → d ⟨data.drop pos, pos⟩ = .error p →
    r pos = .error (.problem p)

namespace Follows

theorem pure (a : α) : Follows data (pure a) (pure a) where
  read hpos h := by
    cases h
    exact ⟨rfl, rfl, hpos⟩
  stop _ h := by cases h

theorem fail (p : DecodeProblem) : Follows data (fail p : Reader α) (.fail p) where
  read _ h := by cases h
  stop _ h := by
    cases h
    rfl

theorem position : Follows data position .position where
  read hpos h := by
    cases h
    exact ⟨rfl, rfl, hpos⟩
  stop _ h := by cases h

/-- One part after another, where the second may rely on what is known of the first. -/
theorem bind_of_ensures {r : Reader α} {d : Decoder α} {f : α → Reader β} {g : α → Decoder β}
    {P : α → Prop} (h : Follows data r d) (hP : d.Ensures P)
    (hf : ∀ a, P a → Follows data (f a) (g a)) : Follows data (r >>= f) (d >>= g) where
  read {pos b c} hpos hb := by
    simp only [Bind.bind, Decoder.andThen, andThen] at hb ⊢
    cases hd : d ⟨data.drop pos, pos⟩ with
    | error p => simp [hd] at hb
    | ok x =>
      obtain ⟨a, rest, pos'⟩ := x
      obtain ⟨hr, hrest, hpos'⟩ := h.read hpos hd
      simp only at hr hrest hpos'
      rw [hd, hrest] at hb
      rw [hr]
      exact (hf a (hP _ _ _ hd)).read hpos' hb
  stop {pos p} hpos hp := by
    simp only [Bind.bind, Decoder.andThen, andThen] at hp ⊢
    cases hd : d ⟨data.drop pos, pos⟩ with
    | error p' =>
      rw [hd] at hp
      cases hp
      rw [h.stop hpos hd]
    | ok x =>
      obtain ⟨a, rest, pos'⟩ := x
      obtain ⟨hr, hrest, hpos'⟩ := h.read hpos hd
      simp only at hr hrest hpos'
      rw [hd, hrest] at hp
      rw [hr]
      exact (hf a (hP _ _ _ hd)).stop hpos' hp

theorem bind {r : Reader α} {d : Decoder α} {f : α → Reader β} {g : α → Decoder β}
    (h : Follows data r d) (hf : ∀ a, Follows data (f a) (g a)) :
    Follows data (r >>= f) (d >>= g) :=
  h.bind_of_ensures (Decoder.ensures_true d) fun a _ => hf a

theorem replicate {r : Reader α} {d : Decoder α} (h : Follows data r d) (n : Nat) :
    Follows data (replicate n r) (.replicate n d) := by
  induction n with
  | zero => exact pure []
  | succ n ih =>
    rw [Decoder.replicate_succ, Reader.replicate]
    exact h.bind fun x => ih.bind fun xs => pure _

theorem ite {r₁ r₂ : Reader α} {d₁ d₂ : Decoder α} {P : Prop} [Decidable P]
    (h₁ : Follows data r₁ d₁) (h₂ : Follows data r₂ d₂) :
    Follows data (if P then r₁ else r₂) (if P then d₁ else d₂) := by
  split_ifs
  · exact h₁
  · exact h₂

/-- After the check that there are enough bytes, the slice is inside the data. -/
theorem take (part : Part) (n : Nat) : Follows data (take data part n) (.take part n) := by
  have hsplit : ∀ pos, Bytes.splitAt? n (data.drop pos) =
      if n ≤ data.length - pos then some ((data.drop pos).take n, data.drop (pos + n))
      else none := by
    intro pos
    rw [Bytes.splitAt?_eq, List.length_drop, List.drop_drop]
  constructor
  · intro pos a c hpos h
    simp only [Decoder.take, hsplit] at h
    split_ifs at h with hn
    cases h
    have hle : pos + n ≤ data.length := by omega
    simp [Reader.take, need, Reader.position, access, moveTo, slice, Bind.bind, andThen, Pure.pure,
      value, Except.map, hle, Nat.not_lt.2 hle, List.drop_take]
  · intro pos p hpos h
    simp only [Decoder.take, hsplit] at h
    split_ifs at h with hn
    cases h
    have hlt : data.length < pos + n := by omega
    simp [Reader.take, need, Bind.bind, andThen, hlt]

theorem byte (part : Part) : Follows data (byte data part) (.byte part) := by
  constructor
  · intro pos a c hpos h
    cases hrest : data.drop pos with
    | nil => simp [Decoder.byte, hrest] at h
    | cons b back =>
      have hlt : pos < data.length := by
        by_contra hle
        simp [List.drop_eq_nil_of_le (Nat.not_lt.1 hle)] at hrest
      obtain ⟨hb, hback⟩ := List.cons.inj ((List.drop_eq_getElem_cons hlt).symm.trans hrest)
      rw [hrest] at h
      cases h
      simp [Reader.byte, need, Reader.position, access, byteAt, moveTo, Bind.bind, andThen,
        Pure.pure, value, Except.map, hlt, Nat.not_lt.2 (Nat.succ_le_of_lt hlt), hb, hback,
        Nat.succ_le_of_lt hlt]
  · intro pos p hpos h
    cases hrest : data.drop pos with
    | cons b back =>
      rw [hrest] at h
      cases h
    | nil =>
      have hlt : data.length < pos + 1 := Nat.lt_succ_of_le (List.drop_eq_nil_iff.1 hrest)
      rw [hrest] at h
      cases h
      simp [Reader.byte, need, Bind.bind, andThen, hlt]

end Follows

/-! ## The parts together -/

/-- A string that was announced has at least the byte that is looked at. -/
theorem dropTerminator_concat (part : Part) (s : Bytes) (b : UInt8) :
    dropTerminator part (s ++ [b]) =
      (Decode.dropTerminator part (s ++ [b])).mapError Stop.problem := by
  have hlist : Decode.dropTerminator part (s ++ [b]) =
      if b = 0 then .ok s else .error (.unterminated part) := by
    induction s with
    | nil => rfl
    | cons b' s ih =>
      rw [List.cons_append, Decode.dropTerminator, ih]
      · split_ifs <;> rfl
      · simp
  have hlast : byteAt (s ++ [b]) s.length = .ok b := by simp [byteAt]
  have hslice : slice (s ++ [b]) 0 s.length = .ok s := by simp [slice]
  rw [hlist]
  simp only [dropTerminator, List.length_append, List.length_singleton, Nat.add_sub_cancel, hlast,
    hslice, Bind.bind, Except.bind]
  split_ifs <;> rfl

section

variable (h : Header)

theorem sized_follows (size : UInt8) (part : Part) :
    Follows data (sized data h size part) (Decode.sized h size part) :=
  (Follows.take part _).bind fun _ => .pure _

theorem int_follows (part : Part) : Follows data (int data h part) (Decode.int h part) :=
  (sized_follows h _ part).bind fun _ => .pure _

theorem count_follows (part : Part) : Follows data (count data h part) (Decode.count h part) :=
  (int_follows h part).bind fun _ => Follows.position.bind fun _ => .ite (.fail _) (.pure _)

theorem string_follows (lengthPart part : Part) :
    Follows data (string data h lengthPart part)
      (Decode.string h data.length lengthPart part) := by
  refine (sized_follows h _ lengthPart).bind fun n => ?_
  by_cases hn : n = 0
  · rw [if_pos hn, if_pos hn]
    exact .pure _
  rw [if_neg hn, if_neg hn]
  refine .ite (.fail _) ?_
  refine (Follows.take part n).bind_of_ensures (Decoder.ensures_take part n) fun bs hbs => ?_
  obtain rfl | ⟨s, b, rfl⟩ := List.eq_nil_or_concat bs
  · exact absurd hbs.symm hn
  · rw [List.concat_eq_append, dropTerminator_concat]
    cases Decode.dropTerminator part (s ++ [b]) with
    | ok s' => exact .pure s'
    | error p => exact .fail p

theorem number_follows (part : Part) : Follows data (number data h part) (Decode.number h part) :=
  (sized_follows h _ part).bind fun _ => .ite (.pure _) (.ite (.pure _) (.pure _))

theorem instruction_follows : Follows data (instruction data h) (Decode.instruction h) :=
  (sized_follows h _ _).bind fun _ => .pure _

theorem constant_follows : Follows data (constant data h) (Decode.constant h data.length) := by
  refine Follows.position.bind fun pos => (Follows.byte _).bind fun tag => .ite ?_ (.ite ?_ ?_)
  · exact (number_follows h _).bind fun _ => .pure _
  · exact (string_follows h _ _).bind fun _ => .pure _
  · exact .fail _

theorem localVar_follows : Follows data (localVar data h) (Decode.localVar h data.length) :=
  (string_follows h _ _).bind fun _ => (int_follows h _).bind fun _ =>
    (int_follows h _).bind fun _ => .pure _

theorem upvalues_follows (nups : UInt8) :
    Follows data (upvalues data h nups) (Decode.upvalues h data.length nups) := by
  refine (count_follows h _).bind fun n => .ite (.fail _) ?_
  exact ((string_follows h _ _).replicate n).bind fun _ => .pure _

theorem function_follows (depth : Nat) :
    Follows data (function data h depth) (Decode.function h data.length depth) := by
  induction depth with
  | zero => exact Follows.position.bind fun _ => .fail _
  | succ depth ih =>
    rw [function, Decode.function]
    refine (string_follows h _ _).bind fun _ => ?_
    refine (int_follows h _).bind fun _ => (int_follows h _).bind fun _ => ?_
    refine (Follows.byte _).bind fun nups => (Follows.byte _).bind fun _ => ?_
    refine (Follows.byte _).bind fun _ => (Follows.byte _).bind fun _ => ?_
    refine (count_follows h _).bind fun _ => ((instruction_follows h).replicate _).bind fun _ => ?_
    refine (count_follows h _).bind fun _ => ((constant_follows h).replicate _).bind fun _ => ?_
    refine (count_follows h _).bind fun _ => (ih.replicate _).bind fun _ => ?_
    refine (count_follows h _).bind fun _ => ((int_follows h _).replicate _).bind fun _ => ?_
    refine (count_follows h _).bind fun _ => ((localVar_follows h).replicate _).bind fun _ => ?_
    exact (upvalues_follows h nups).bind fun _ => .pure _

end

/-- The header is read by position as it is read off the front. -/
theorem header_eq (data : Bytes) :
    header data = ((Decode.header data).map Prod.fst).mapError Stop.problem ∧
      ∀ h rest, Decode.header data = .ok (h, rest) →
        rest = data.drop Decode.headerSize ∧ Decode.headerSize ≤ data.length := by
  rcases data with _ | ⟨s₀, _ | ⟨s₁, _ | ⟨s₂, _ | ⟨s₃, _ | ⟨version, _ | ⟨format,
    _ | ⟨endianness, _ | ⟨intSize, _ | ⟨sizeTSize, _ | ⟨instructionSize, _ | ⟨numberSize,
    _ | ⟨integral, rest⟩⟩⟩⟩⟩⟩⟩⟩⟩⟩⟩⟩
  -- Fewer than twelve bytes are refused by both.
  iterate 12 exact ⟨rfl, fun _ _ h => by cases h⟩
  constructor
  · simp only [header, Decode.header, Decode.headerSize, List.length_cons]
    rw [if_neg (by omega)]
    simp only [slice, byteAt, List.length_cons, Bind.bind, Except.bind, List.take_succ_cons,
      List.take_zero, List.drop_zero, List.getElem?_cons_succ, List.getElem?_cons_zero]
    rw [if_pos (by omega)]
    simp only
    split_ifs
    · rfl
    · rfl
    · -- both refuse the same headers
      cases Header.problem? (⟨format, endianness, intSize, sizeTSize, instructionSize,
        numberSize, integral ≠ 0⟩ : Header) with
      | none => rfl
      | some problem => rfl
  · intro h rest' hheader
    rw [Decode.header] at hheader
    split_ifs at hheader
    dsimp only at hheader
    split at hheader
    · cases hheader
    · cases hheader
      simp [Decode.headerSize]

/-- On every input the reader by position ends as the reader of the list does.  So no access leaves
the bytes, and the position is never set back or beyond the end. -/
theorem decode_eq (data : Bytes) :
    decode data = (Chunk.decode data).mapError Stop.problem := by
  obtain ⟨hheader, hrest⟩ := header_eq data
  rw [decode, Chunk.decode, hheader]
  cases hlist : Decode.header data with
  | error p => rfl
  | ok r =>
    obtain ⟨h, rest⟩ := r
    obtain ⟨rfl, hsize⟩ := hrest h rest hlist
    have hfollows : Follows data _ _ := function_follows h (Decode.maxDepth + 1)
    simp only [Except.map, Except.mapError, Bind.bind, Except.bind]
    cases hmain : Decode.function h data.length (Decode.maxDepth + 1)
        ⟨data.drop Decode.headerSize, Decode.headerSize⟩ with
    | error p => rw [hfollows.stop hsize hmain]
    | ok r =>
      obtain ⟨main, c⟩ := r
      obtain ⟨hread, hleft, hpos⟩ := hfollows.read hsize hmain
      -- Nothing is left of the list exactly when the position is the end of the data.
      have hend : c.pos = data.length ↔ c.rest = [] := by
        rw [hleft, List.drop_eq_nil_iff]
        omega
      simp only [hread, hend, hleft, List.length_drop]
      split_ifs <;> rfl

end Indexed

end LuaAssembly
