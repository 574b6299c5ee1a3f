import Mathlib
import LuaAssembly.Chunk.Writer
import LuaAssembly.Proofs.Chunk.Layout

/-!
# What reaches a sink

Bytes that are written stay in the buffer for some time before the sink gets them, and the sink may
refuse them long after they were written.  `Buffer.Carries` says where the bytes are that were
written: as long as nothing is refused, the sink has taken the first of them and the buffer holds
the others; and once something was refused, the sink is full and has the first of them for ever.
Every byte and every flush keeps this, so a whole run of a writer does.

The main statement is that a sink always holds the beginning of what was written, all of it that the
sink has room for after a flush, and that a failure stays.
-/
namespace LuaAssembly

/-! ## Sinks -/

namespace Sink

variable {capacity : Option Nat} {refusal : Nat → Refusal} {front : Bytes}

/-- A sink with room takes everything.  A sink without takes the first bytes and is full. -/
theorem put_cases (hfront : ∀ n ∈ capacity, front.length ≤ n) (bs : Bytes) :
    ((∀ n ∈ capacity, (front ++ bs).length ≤ n) ∧
        put ⟨capacity, refusal, front, 0⟩ bs = (⟨capacity, refusal, front ++ bs, 0⟩, none)) ∨
      ∃ n, capacity = some n ∧ n < (front ++ bs).length ∧
        put ⟨capacity, refusal, front, 0⟩ bs =
          (⟨some n, refusal, (front ++ bs).take n, 1⟩, some (refusal 0)) := by
  cases capacity with
  | none => exact .inl ⟨by simp, rfl⟩
  | some n =>
    replace hfront : front.length ≤ n := hfront n rfl
    by_cases hroom : bs.length ≤ n - front.length
    · refine .inl ⟨?_, by simp [put, hroom]⟩
      intro m hm
      obtain rfl := Option.some.inj hm
      rw [List.length_append]
      omega
    · refine .inr ⟨n, rfl, ?_, ?_⟩
      · rw [List.length_append]
        omega
      · simp [put, hroom, List.take_append, List.take_of_length_le hfront]

end Sink

/-! ## Buffers -/

/-- Where the bytes are that were written to a buffer in front of a fresh sink. -/
inductive Buffer.Carries (capacity : Option Nat) (refusal : Nat → Refusal) (written : Bytes) :
    Buffer → Prop where
  /-- Nothing was refused: the buffer holds what the sink has not taken yet. -/
  | flowing {b : Buffer} {front : Bytes} (hrefusal : b.refusal = none)
    (hsink : b.sink = ⟨capacity, refusal, front, 0⟩) (hroom : ∀ n ∈ capacity, front.length ≤ n)
    (hwritten : front ++ b.held.reverse = written) : Carries capacity refusal written b
  /-- Something was refused: more was written than the sink takes. -/
  | stuck {b : Buffer} {n : Nat} (hrefusal : b.refusal = some (refusal 0))
    (hcapacity : capacity = some n) (hfull : n < written.length)
    (hsink : b.sink = ⟨some n, refusal, written.take n, 1⟩) : Carries capacity refusal written b

namespace Buffer

variable {capacity : Option Nat} {refusal : Nat → Refusal} {written : Bytes} {b : Buffer}

theorem carries_new (size : Nat) (capacity : Option Nat) (refusal : Nat → Refusal) :
    (new size (.fresh capacity refusal)).Carries capacity refusal [] :=
  .flowing rfl rfl (by simp) rfl

theorem flush_of_none (hnone : b.refusal = none) :
    b.flush = ⟨b.size, b.size, [], (b.sink.put b.held.reverse).1,
      (b.sink.put b.held.reverse).2⟩ := by
  rw [flush, hnone]

theorem flush_of_refusal {r : Refusal} (hr : b.refusal = some r) : b.flush = b := by
  rw [flush, hr]

namespace Carries

theorem taken_prefix (h : b.Carries capacity refusal written) : b.sink.taken <+: written := by
  cases h with
  | flowing _ hsink _ hwritten =>
    rw [hsink, ← hwritten]
    exact List.prefix_append _ _
  | stuck _ _ _ hsink =>
    rw [hsink]
    exact List.take_prefix _ _

theorem refusal_eq (h : b.Carries capacity refusal written) {r : Refusal}
    (hr : b.refusal = some r) : r = refusal 0 := by
  cases h with
  | flowing hrefusal _ _ _ => cases hrefusal.symm.trans hr
  | stuck hrefusal _ _ _ => exact Option.some.inj (hr.symm.trans hrefusal)

theorem flush (h : b.Carries capacity refusal written) :
    b.flush.Carries capacity refusal written := by
  cases h with
  | flowing hrefusal hsink hroom hwritten =>
    rw [flush_of_none hrefusal, hsink]
    rcases Sink.put_cases hroom b.held.reverse with ⟨hfits, hput⟩ | ⟨n, hcapacity, hfull, hput⟩
    · rw [hwritten] at hfits hput
      rw [hput]
      exact .flowing rfl rfl hfits (List.append_nil _)
    · rw [hwritten] at hfull hput
      rw [hput]
      exact .stuck rfl hcapacity hfull rfl
  | stuck hrefusal hcapacity hfull hsink =>
    rw [flush_of_refusal hrefusal]
    exact .stuck hrefusal hcapacity hfull hsink

/-- After a flush nothing is held back, unless something was refused. -/
theorem held_flush (h : b.Carries capacity refusal written) (hnone : b.flush.refusal = none) :
    b.flush.held = [] := by
  cases h with
  | flowing hrefusal _ _ _ => rw [flush_of_none hrefusal]
  | stuck hrefusal _ _ _ =>
    rw [flush_of_refusal hrefusal] at hnone
    cases hrefusal.symm.trans hnone

/-- A flush goes through exactly when the sink has room for everything that was written, and then
the sink has all of it; otherwise it has as much as it takes. -/
theorem flush_iff (h : b.Carries capacity refusal written) :
    (b.flush.refusal = none ↔ ∀ n ∈ capacity, written.length ≤ n) ∧
      b.flush.sink.taken = capacity.elim written written.take := by
  have hheld := h.held_flush
  cases h.flush with
  | flowing hrefusal hsink hroom hwritten =>
    rw [hheld hrefusal, List.reverse_nil, List.append_nil] at hwritten
    subst hwritten
    refine ⟨iff_of_true hrefusal hroom, ?_⟩
    rw [hsink]
    cases capacity with
    | none => rfl
    | some n => exact (List.take_of_length_le (hroom n rfl)).symm
  | stuck hrefusal hcapacity hfull hsink =>
    subst hcapacity
    refine ⟨iff_of_false (by simp [hrefusal]) fun hfits => ?_, by rw [hsink]; rfl⟩
    exact absurd (hfits _ rfl) (Nat.not_le.2 hfull)

/-- Once something was refused, it does not matter what else is written. -/
theorem append_of_refusal (h : b.Carries capacity refusal written) {r : Refusal}
    (hr : b.refusal = some r) (more : Bytes) :
    b.Carries capacity refusal (written ++ more) := by
  cases h with
  | flowing hrefusal _ _ _ => cases hrefusal.symm.trans hr
  | stuck hrefusal hcapacity hfull hsink =>
    refine .stuck hrefusal hcapacity ?_ ?_
    · rw [List.length_append]
      omega
    · rw [hsink, List.take_append_of_le_length hfull.le]

theorem write (h : b.Carries capacity refusal written) (byte : UInt8) :
    (b.write byte).Carries capacity refusal (written ++ [byte]) := by
  have hready : (if b.room = 0 then b.flush else b).Carries capacity refusal written := by
    split_ifs
    · exact h.flush
    · exact h
  rw [Buffer.write]
  generalize (if b.room = 0 then b.flush else b) = ready at hready
  cases hrefusal : ready.refusal with
  | some r => simpa only [hrefusal] using hready.append_of_refusal hrefusal [byte]
  | none =>
    cases hready with
    | flowing _ hsink hroom hwritten =>
      refine .flowing rfl hsink hroom ?_
      rw [List.reverse_cons, ← List.append_assoc, hwritten]
    | stuck hsome _ _ _ => cases hrefusal.symm.trans hsome

end Carries

end Buffer

/-! ## Writers -/

namespace Writer

/-- The writer uses the header, its buffer carries what was written, and its failure is the refusal
that the buffer keeps. -/
structure Carries (h : Header) (capacity : Option Nat) (refusal : Nat → Refusal)
    (written : Bytes) (w : Writer) : Prop where
  header : w.header = h
  buffer : w.buffer.Carries capacity refusal written
  failure : w.failure = w.buffer.refusal.map .mk

variable {h : Header} {capacity : Option Nat} {refusal : Nat → Refusal} {written : Bytes}
  {w : Writer}

theorem carries_onto (h : Header) (size : Nat) (capacity : Option Nat)
    (refusal : Nat → Refusal) :
    (onto h (.new size (.fresh capacity refusal))).Carries h capacity refusal [] :=
  ⟨rfl, Buffer.carries_new size capacity refusal, rfl⟩

theorem write_of_failure {e : WriteFailure} (he : w.failure = some e) (byte : UInt8) :
    w.write byte = w := by
  rw [write, he]

theorem foldl_write_of_failure {e : WriteFailure} (he : w.failure = some e) (bs : Bytes) :
    bs.foldl write w = w := by
  induction bs with
  | nil => rfl
  | cons byte bs ih => rw [List.foldl_cons, write_of_failure he, ih]

theorem flush_of_failure {e : WriteFailure} (he : w.failure = some e) :
    w.flush = (w, .error e) := by
  rw [flush, he]

theorem flush_of_none (hnone : w.failure = none) :
    w.flush = (w.settle w.buffer.flush,
      match w.buffer.flush.refusal with
      | some r => .error ⟨r⟩
      | none => .ok ()) := by
  rw [flush, hnone]
  cases hrefusal : w.buffer.flush.refusal with
  | none => simp [settle, hrefusal]
  | some r => simp [settle, hrefusal]

/-- A flush that fails leaves its failure behind. -/
theorem failure_flush {e : WriteFailure} (he : w.flush.2 = .error e) :
    w.flush.1.failure = some e := by
  cases hfailure : w.failure with
  | some e' =>
    rw [flush_of_failure hfailure] at he ⊢
    cases he
    exact hfailure
  | none =>
    rw [flush_of_none hfailure] at he ⊢
    cases hrefusal : w.buffer.flush.refusal with
    | none => simp [hrefusal] at he
    | some r =>
      simp only [hrefusal, Except.error.injEq] at he
      simp [settle, hrefusal, he]

namespace Carries

theorem settle (hw : w.Carries h capacity refusal written) {b : Buffer} {written' : Bytes}
    (hb : b.Carries capacity refusal written') :
    (w.settle b).Carries h capacity refusal written' :=
  ⟨hw.header, hb, rfl⟩

theorem write (hw : w.Carries h capacity refusal written) (byte : UInt8) :
    (w.write byte).Carries h capacity refusal (written ++ [byte]) := by
  cases hfailure : w.failure with
  | none =>
    rw [Writer.write, hfailure]
    exact hw.settle (hw.buffer.write byte)
  | some e =>
    obtain ⟨r, hrefusal, -⟩ := Option.map_eq_some_iff.1 (hw.failure.symm.trans hfailure)
    rw [write_of_failure hfailure]
    exact ⟨hw.header, hw.buffer.append_of_refusal hrefusal [byte], hw.failure⟩

theorem foldl_write (hw : w.Carries h capacity refusal written) (bs : Bytes) :
    (bs.foldl Writer.write w).Carries h capacity refusal (written ++ bs) := by
  induction bs generalizing w written with
  | nil => simpa using hw
  | cons byte bs ih => simpa using ih (hw.write byte)

theorem flush (hw : w.Carries h capacity refusal written) :
    w.flush.1.Carries h capacity refusal written := by
  cases hfailure : w.failure with
  | none =>
    rw [flush_of_none hfailure]
    exact hw.settle hw.buffer.flush
  | some e =>
    rw [flush_of_failure hfailure]
    exact hw

/-- A flush tells whether the sink has room for everything that was written, and leaves as much of
it in the sink as the sink takes. -/
theorem flush_iff (hw : w.Carries h capacity refusal written) :
    (w.flush.2 = .ok () ↔ ∀ n ∈ capacity, written.length ≤ n) ∧
      w.flush.1.sink.taken = capacity.elim written written.take := by
  obtain ⟨hroom, htaken⟩ := hw.buffer.flush_iff
  cases hfailure : w.failure with
  | none =>
    rw [flush_of_none hfailure]
    refine ⟨?_, htaken⟩
    rw [← hroom]
    cases w.buffer.flush.refusal <;> simp
  | some e =>
    -- The flush of the buffer would not do anything either.
    obtain ⟨r, hrefusal, -⟩ := Option.map_eq_some_iff.1 (hw.failure.symm.trans hfailure)
    rw [Buffer.flush_of_refusal hrefusal] at hroom htaken
    rw [hrefusal] at hroom
    rw [flush_of_failure hfailure]
    exact ⟨by simpa using hroom, htaken⟩

/-- A flush fails with what the sink said first. -/
theorem error_eq (hw : w.Carries h capacity refusal written) {e : WriteFailure}
    (he : w.flush.2 = .error e) : e = ⟨refusal 0⟩ := by
  obtain ⟨r, hrefusal, rfl⟩ := Option.map_eq_some_iff.1 (hw.flush.failure.symm.trans (failure_flush he))
  rw [hw.flush.buffer.refusal_eq hrefusal]

end Carries

/-! ## Runs of a writer -/

/-- A call of a writer. -/
inductive Call where
  | header
  | function (f : FunctionTree Prototype)
  | flush

/-- What a call writes. -/
def Call.bytes (h : Header) : Call → Bytes
  | .header => Encode.header h
  | .function f => (Encode.function h f).bytes
  | .flush => []

/-- The writer after a call. -/
def call (w : Writer) : Call → Writer
  | .header => w.writeHeader
  | .function f => (w.writeFunction f).1
  | .flush => w.flush.1

/-- The writer after several calls. -/
def run (w : Writer) (calls : List Call) : Writer :=
  calls.foldl call w

theorem Carries.call (hw : w.Carries h capacity refusal written) (c : Call) :
    (w.call c).Carries h capacity refusal (written ++ c.bytes h) := by
  obtain rfl : w.header = h := hw.header
  cases c with
  | header => exact hw.foldl_write _
  | function f => exact hw.foldl_write _
  | flush =>
    rw [Call.bytes, List.append_nil]
    exact hw.flush

theorem Carries.run (hw : w.Carries h capacity refusal written) (calls : List Call) :
    (w.run calls).Carries h capacity refusal (written ++ calls.flatMap (Call.bytes h)) := by
  induction calls generalizing w written with
  | nil => simpa [Writer.run] using hw
  | cons c calls ih => simpa [Writer.run] using ih (hw.call c)

/-- After a failure no call does anything. -/
theorem run_of_failure {e : WriteFailure} (he : w.failure = some e) (calls : List Call) :
    w.run calls = w := by
  have hcall : ∀ c, w.call c = w := by
    intro c
    cases c with
    | header => exact foldl_write_of_failure he _
    | function f => exact foldl_write_of_failure he _
    | flush => rw [call, flush_of_failure he]
  induction calls with
  | nil => rfl
  | cons c calls ih => rw [run, List.foldl_cons, hcall, ← run, ih]

end Writer

/-! ## Chunks -/

namespace Chunk

variable {c : Chunk} {b : Bytes}

/-- A chunk has a binary form when it is not refused and writing it does not stop. -/
theorem encode_eq_ok_iff : c.encode = .ok b ↔ c.refusal? = none ∧
    (Encode.function c.header c.main).stop = none ∧
      b = Encode.header c.header ++ (Encode.function c.header c.main).bytes := by
  rw [encode]
  cases c.refusal? with
  | some p => simp
  | none =>
    cases hstop : (Encode.function c.header c.main).stop with
    | some u => simp [Emission.append, Emission.ofBytes, hstop]
    | none => simp [Emission.append, Emission.ofBytes, hstop, eq_comm]

/-- A chunk that is not refused is written as its header and its main function, and then the writer
is flushed, unless writing stops. -/
theorem exists_writeTo_eq (hrefusal : c.refusal? = none) (capacity : Option Nat)
    (refusal : Nat → Refusal) :
    ∃ w : Writer, w.Carries c.header capacity refusal
        (Encode.header c.header ++ (Encode.function c.header c.main).bytes) ∧
      c.writeTo (.fresh capacity refusal) =
        match (Encode.function c.header c.main).stop with
        | some u => (w.sink, .error (.encode (.unwritable u)))
        | none => (w.flush.1.sink, w.flush.2.mapError .sink) := by
  have hheader := (Writer.carries_onto c.header Buffer.usualSize capacity refusal).call .header
  have hwritten := hheader.call (.function c.main)
  refine ⟨_, hwritten, ?_⟩
  have hstop : ((Writer.onto c.header (.new Buffer.usualSize (.fresh capacity refusal))).call
      .header).header = c.header := hheader.header
  rw [writeTo, hrefusal]
  simp only [Writer.call, Writer.writeFunction, Writer.emit] at hstop ⊢
  rw [hstop]
  cases (Encode.function c.header c.main).stop with
  | some u => rfl
  | none =>
    dsimp only
    split
    · rename_i hflush
      simp [hflush, Except.mapError]
    · rename_i hflush
      simp [hflush, Except.mapError]

/-- A sink ends up with as much of the binary form as it takes, and the chunk is delivered exactly
when that is all of it. -/
theorem writeTo_of_encode (hb : c.encode = .ok b) (capacity : Option Nat)
    (refusal : Nat → Refusal) :
    ((c.writeTo (.fresh capacity refusal)).2 = .ok () ↔ ∀ n ∈ capacity, b.length ≤ n) ∧
      (∀ e, (c.writeTo (.fresh capacity refusal)).2 = .error e → e = .sink ⟨refusal 0⟩) ∧
      (c.writeTo (.fresh capacity refusal)).1.taken = capacity.elim b b.take := by
  obtain ⟨hrefusal, hstop, rfl⟩ := encode_eq_ok_iff.1 hb
  obtain ⟨w, hw, heq⟩ := exists_writeTo_eq hrefusal capacity refusal
  obtain ⟨hflush, htaken⟩ := hw.flush_iff
  rw [hstop] at heq
  rw [heq, ← hflush]
  refine ⟨?_, fun e he => ?_, htaken⟩
  · cases w.flush.2 <;> simp [Except.mapError]
  · cases hresult : w.flush.2 with
    | ok u => simp [hresult, Except.mapError] at he
    | error e' =>
      obtain rfl := hw.error_eq hresult
      simpa [hresult, Except.mapError, eq_comm] using he

/-- A chunk without a binary form is not delivered to any sink. -/
theorem writeTo_of_encode_error {p : EncodeProblem} (hp : c.encode = .error p)
    (capacity : Option Nat) (refusal : Nat → Refusal) :
    (c.writeTo (.fresh capacity refusal)).2 = .error (.encode p) := by
  rw [encode] at hp
  cases hrefusal : c.refusal? with
  | some q =>
    rw [hrefusal] at hp
    cases hp
    rw [writeTo, hrefusal]
  | none =>
    obtain ⟨w, -, heq⟩ := exists_writeTo_eq hrefusal capacity refusal
    rw [hrefusal] at hp
    cases hstop : (Encode.function c.header c.main).stop with
    | none => simp [Emission.append, Emission.ofBytes, hstop] at hp
    | some u =>
      obtain rfl : EncodeProblem.unwritable u = p := by
        simpa [Emission.append, Emission.ofBytes, hstop] using hp
      rw [heq, hstop]

end Chunk

/-! ## Prefixes and failures -/

/-- What a writer to a sink has to show for the bytes that were written. -/
structure Writer.Delivers (capacity : Option Nat) (refusal : Nat → Refusal) (written : Bytes)
    (w : Writer) : Prop where
  taken : w.sink.taken <+: written
  /-- A flush goes through if the sink has room for all of them. -/
  flush : w.flush.2 = .ok () ↔ ∀ n ∈ capacity, written.length ≤ n
  refused : ∀ e, w.flush.2 = .error e → e = ⟨refusal 0⟩
  flushed : w.flush.1.sink.taken = capacity.elim written written.take
  /-- After a flush that fails, whatever is called, the sink stays as it is and every flush fails in
  the same way. -/
  sticks : ∀ e, w.flush.2 = .error e → ∀ more : List Call,
    (w.flush.1.run more).flush.2 = .error e ∧ (w.flush.1.run more).sink = w.flush.1.sink

theorem Writer.Carries.delivers {h : Header} {capacity : Option Nat} {refusal : Nat → Refusal}
    {written : Bytes} {w : Writer} (hw : w.Carries h capacity refusal written) :
    w.Delivers capacity refusal written where
  taken := hw.buffer.taken_prefix
  flush := hw.flush_iff.1
  refused _ he := hw.error_eq he
  flushed := hw.flush_iff.2
  sticks e he more := by
    have hfailure := failure_flush he
    rw [run_of_failure hfailure, flush_of_failure hfailure]
    exact ⟨rfl, rfl⟩

/-- A sink that takes `n` bytes in all gets the first `n` bytes of a chunk, and the chunk is
delivered exactly when it has no more than these.  Through any calls of a writer whose header is
valid and whose functions have numbers and strings as constants, no call stops half-way, the sink
holds the beginning of everything that was written, and a failure stays. -/
theorem delivery_prefix_sticks :
    (∀ (c : Chunk) (b : Bytes) (n : Nat) (refusal : Nat → Refusal), c.encode = .ok b →
      ((c.writeTo (.fresh (some n) refusal)).2 = .ok () ↔ b.length ≤ n) ∧
        (∀ e, (c.writeTo (.fresh (some n) refusal)).2 = .error e → e = .sink ⟨refusal 0⟩) ∧
        (c.writeTo (.fresh (some n) refusal)).1.taken = b.take n) ∧
    ∀ (h : Header) (size : Nat) (capacity : Option Nat) (refusal : Nat → Refusal)
      (calls : List Writer.Call), h.validate = .ok () →
      (∀ f, .function f ∈ calls → f.Every fun p _ => p.ConstantsKnown) →
      let w := Writer.onto h (.new size (.fresh capacity refusal))
      (∀ front f back, calls = front ++ .function f :: back →
          ((w.run front).writeFunction f).2 = none) ∧
        (w.run calls).Delivers capacity refusal (calls.flatMap (Writer.Call.bytes h)) := by
  constructor
  · intro c b n refusal hb
    simpa using Chunk.writeTo_of_encode hb (some n) refusal
  · intro h size capacity refusal calls hvalid hplain
    have hu := Header.usable_of_problem? ((Header.problem?_eq_none_iff_validate _).2 hvalid)
    have hstart := Writer.carries_onto h size capacity refusal
    refine ⟨fun front f back hcalls => ?_, (hstart.run calls).delivers⟩
    rw [Writer.writeFunction, (hstart.run front).header]
    exact Encode.function_complete hu (hplain f (by simp [hcalls]))

/-- What a sink says that counts its refusals. -/
def countedRefusal (i : Nat) : Refusal :=
  ⟨Numeral.ofNat i⟩

/-- A writer with a buffer of five bytes, in front of a sink that takes twenty. -/
def narrowWriter : Writer :=
  .onto exactChunk.header (.new 5 (.fresh (some 20) countedRefusal))

/-- The sink takes twenty bytes of the chunk.  When the chunk is written in two parts, the flush
behind the header goes through, the one behind the function does not, and from then on the first
refusal is repeated. -/
theorem delivery_prefix_sticks_exactChunk :
    ∃ b, exactChunk.encode = .ok b ∧ b.length = 98 ∧
      (exactChunk.writeTo (.fresh (some 20) countedRefusal)).2 ≠ .ok () ∧
      (exactChunk.writeTo (.fresh (some 20) countedRefusal)).1.taken = b.take 20 ∧
      (narrowWriter.run [.header]).flush.2 = .ok () ∧
      ∃ w, w = narrowWriter.run [.header, .flush, .function exactChunk.main] ∧
        w.flush.2 = .error ⟨countedRefusal 0⟩ ∧ w.flush.1.sink.taken = b.take 20 ∧
        ∀ more, (w.flush.1.run more).flush.2 = .error ⟨countedRefusal 0⟩ := by
  obtain ⟨hchunk, hwriter⟩ := delivery_prefix_sticks
  have hvalid : exactChunk.header.validate = .ok () := by decide
  have hplain : exactChunk.main.Every fun p _ => p.ConstantsKnown := by decide
  have hproblem := (Header.problem?_eq_none_iff_validate _).2 hvalid
  have hb := Chunk.encode_eq hproblem hplain.isAbsent
    (Encode.function_complete (Header.usable_of_problem? hproblem) hplain)
  have hlength : (Encode.header exactChunk.header ++
      (Encode.function exactChunk.header exactChunk.main).bytes).length = 98 := by decide +kernel
  obtain ⟨hroom, -, htaken⟩ := hchunk _ _ 20 countedRefusal hb
  have hfirst := (hwriter exactChunk.header 5 (some 20) countedRefusal [.header] hvalid
    (by simp)).2
  have hsecond := (hwriter exactChunk.header 5 (some 20) countedRefusal
    [.header, .flush, .function exactChunk.main] hvalid (by simpa using hplain)).2
  rw [← narrowWriter] at hfirst hsecond
  have hwritten : [Writer.Call.header, .flush, .function exactChunk.main].flatMap
      (Writer.Call.bytes exactChunk.header) = Encode.header exactChunk.header ++
        (Encode.function exactChunk.header exactChunk.main).bytes := by
    simp [Writer.Call.bytes]
  rw [hwritten] at hsecond
  generalize hbytes : Encode.header exactChunk.header ++
    (Encode.function exactChunk.header exactChunk.main).bytes = b at *
  have herror : (narrowWriter.run [.header, .flush, .function exactChunk.main]).flush.2 =
      .error ⟨countedRefusal 0⟩ := by
    cases hresult : (narrowWriter.run [.header, .flush, .function exactChunk.main]).flush.2 with
    | error e => rw [hsecond.refused e hresult]
    | ok u =>
      have := hsecond.flush.1 hresult 20 rfl
      omega
  refine ⟨b, hb, hlength, fun hok => ?_, htaken, hfirst.flush.2 (by simp; decide), _, rfl, herror,
    hsecond.flushed, fun more => (hsecond.sticks _ herror more).1⟩
  have := hroom.1 hok
  omega

end LuaAssembly
