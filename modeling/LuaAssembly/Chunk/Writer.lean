import LuaAssembly.Chunk.Encode

/-!
# Writing to a sink

A sink takes bytes in order, and may take only so many in all.  A buffer in front of it holds bytes
back until it is full or flushed, and keeps the first refusal of the sink.  A writer writes chunk
data to such a buffer, byte by byte.  Once bytes have been refused the failure stays: nothing is
written any more and every later flush fails in the same way.
-/
namespace LuaAssembly

/-! ## Sinks -/

/-- What a sink says when it does not take all bytes. -/
structure Refusal where
  reason : Bytes
  deriving DecidableEq

/-- Where bytes go. -/
structure Sink where
  /-- How many bytes it takes in all; no limit when absent. -/
  capacity : Option Nat
  /-- What it says each time that it does not take all bytes. -/
  refusal : Nat → Refusal
  taken : Bytes
  /-- How often it has not taken all bytes. -/
  refusals : Nat

namespace Sink

/-- A sink that has taken nothing yet. -/
def fresh (capacity : Option Nat) (refusal : Nat → Refusal) : Sink :=
  ⟨capacity, refusal, [], 0⟩

/-- A fresh sink that says that its limit is reached. -/
def limited (capacity : Option Nat) : Sink :=
  fresh capacity fun _ => ⟨utf8 "limit reached"⟩

/-- Hands bytes to the sink.  It takes as many as it has room for, and refuses the others. -/
def put (s : Sink) (bs : Bytes) : Sink × Option Refusal :=
  match s.capacity with
  | none => ({ s with taken := s.taken ++ bs }, none)
  | some n =>
    let room := n - s.taken.length
    if bs.length ≤ room then ({ s with taken := s.taken ++ bs }, none)
    else
      ({ s with taken := s.taken ++ bs.take room, refusals := s.refusals + 1 },
        some (s.refusal s.refusals))

end Sink

/-! ## Buffers -/

/-- A buffer in front of a sink. -/
structure Buffer where
  /-- How many bytes it holds back before it hands them on. -/
  size : Nat
  /-- How many more bytes it can hold back. -/
  room : Nat
  /-- The bytes held back, the newest first. -/
  held : Bytes
  sink : Sink
  /-- The first refusal of the sink. -/
  refusal : Option Refusal

namespace Buffer

/-- The size of buffers, unless they are made with another one. -/
def usualSize : Nat := 4096

/-- An empty buffer. -/
def new (size : Nat) (s : Sink) : Buffer :=
  ⟨size, size, [], s, none⟩

/-- Hands everything held back to the sink.  After a refusal nothing is handed on. -/
def flush (b : Buffer) : Buffer :=
  match b.refusal with
  | some _ => b
  | none =>
    let (sink, refusal) := b.sink.put b.held.reverse
    { b with room := b.size, held := [], sink, refusal }

/-- Writes a byte, for which a full buffer makes room.  After a refusal nothing is written. -/
def write (b : Buffer) (byte : UInt8) : Buffer :=
  let b := if b.room = 0 then b.flush else b
  match b.refusal with
  | some _ => b
  | none => { b with room := b.room - 1, held := byte :: b.held }

end Buffer

/-! ## Writers -/

/-- A writer could not write all bytes. -/
structure WriteFailure where
  refusal : Refusal
  deriving DecidableEq

/-- The text of the failure. -/
def WriteFailure.message (f : WriteFailure) : Bytes :=
  utf8 "luac: write: " ++ f.refusal.reason

/-- A writer of chunk data. -/
structure Writer where
  header : Header
  buffer : Buffer
  failure : Option WriteFailure

namespace Writer

/-- A writer to a buffer. -/
def onto (h : Header) (b : Buffer) : Writer :=
  ⟨h, b, none⟩

/-- A writer to a fresh sink. -/
def new (h : Header) (capacity : Option Nat) : Writer :=
  onto h (.new Buffer.usualSize (.limited capacity))

/-- The sink behind the buffer. -/
def sink (w : Writer) : Sink :=
  w.buffer.sink

/-- The writer after an operation on its buffer: a refusal is its failure. -/
def settle (w : Writer) (b : Buffer) : Writer :=
  { w with buffer := b, failure := b.refusal.map .mk }

/-- Writes a byte.  After a failure nothing is written. -/
def write (w : Writer) (byte : UInt8) : Writer :=
  match w.failure with
  | some _ => w
  | none => w.settle (w.buffer.write byte)

/-- Writes what an emission writes, and reports where it stopped. -/
def emit (w : Writer) (e : Emission) : Writer × Option Unwritable :=
  (e.bytes.foldl write w, e.stop)

/-- Writes the header. -/
def writeHeader (w : Writer) : Writer :=
  (w.emit (.ofBytes (Encode.header w.header))).1

/-- Writes a function and the functions nested in it. -/
def writeFunction (w : Writer) (f : FunctionTree Prototype) : Writer × Option Unwritable :=
  w.emit (Encode.function w.header f)

/-- Hands everything written to the sink, and reports the first failure. -/
def flush (w : Writer) : Writer × Except WriteFailure Unit :=
  match w.failure with
  | some e => (w, .error e)
  | none =>
    let w := w.settle w.buffer.flush
    match w.failure with
    | some e => (w, .error e)
    | none => (w, .ok ())

end Writer

/-- Why a chunk did not reach a sink. -/
inductive DeliveryProblem where
  | encode (problem : EncodeProblem)
  | sink (problem : WriteFailure)

/-- The text of a problem. -/
def DeliveryProblem.message : DeliveryProblem → Bytes
  | .encode p => p.message
  | .sink p => p.message

namespace Chunk

/-- Writes a chunk to a sink, and gives the sink as it is at the end. -/
def writeTo (c : Chunk) (s : Sink) : Sink × Except DeliveryProblem Unit :=
  match c.refusal? with
  | some p => (s, .error (.encode p))
  | none =>
    let w := Writer.onto c.header (.new Buffer.usualSize s)
    let (w, stop) := w.writeHeader.writeFunction c.main
    match stop with
    | some u => (w.sink, .error (.encode (.unwritable u)))
    | none =>
      let (w, result) := w.flush
      match result with
      | .error e => (w.sink, .error (.sink e))
      | .ok () => (w.sink, .ok ())

/-- Writes a chunk to a fresh sink of the given capacity, and gives what the sink holds at the
end. -/
def deliver (c : Chunk) (capacity : Option Nat) : Bytes × Except DeliveryProblem Unit :=
  let (s, result) := c.writeTo (.limited capacity)
  (s.taken, result)

end Chunk

end LuaAssembly
