import LuaAssembly.Chunk.Header

/-!
# Integers of declared width

Multi-byte values are stored at the width and in the byte order that the header declares.  Writing
keeps the low bytes of a 64-bit value and fills wider fields with zeros; reading gives the stored
bytes as a natural number, which `signExtend` turns into a signed one.
-/
namespace LuaAssembly.Sized

open scoped Power

/-- The low `size` bytes of `x`, least significant first. -/
def toLittle : Nat → Nat → Bytes
  | 0, _ => []
  | size + 1, x => UInt8.ofNat (x % 256) :: toLittle size (x / 256)

/-- The number that bytes stand for, least significant first. -/
def ofLittle : Bytes → Nat
  | [] => 0
  | b :: bs => b.toNat + 256 * ofLittle bs

/-- The low `size` bytes of `x` in a byte order. -/
def write (order : ByteOrder) (size x : Nat) : Bytes :=
  match order with
  | .little => toLittle size x
  | .big => (toLittle size x).reverse

/-- The number that bytes stand for in a byte order. -/
def read (order : ByteOrder) (bs : Bytes) : Nat :=
  match order with
  | .little => ofLittle bs
  | .big => ofLittle bs.reverse

/-- An integer as a 64-bit value: modulo `2 ^ 64`. -/
def wrap64 (v : Int) : Nat :=
  (v % 2 ^ (64 : Nat)).toNat

/-- The signed number that `size` bytes with value `x` stand for. -/
def signExtend (size x : Nat) : Int :=
  Int.bmod (x : Int) (2 ^ (8 * size))

@[simp] theorem length_toLittle (size x : Nat) : (toLittle size x).length = size := by
  induction size generalizing x with
  | zero => rfl
  | succ size ih => simp [toLittle, ih]

@[simp] theorem length_write (order : ByteOrder) (size x : Nat) :
    (write order size x).length = size := by
  cases order <;> simp [write]

/-- Reading what was written gives the value modulo the width. -/
theorem ofLittle_toLittle (size x : Nat) : ofLittle (toLittle size x) = x % 256 ^ size := by
  induction size generalizing x with
  | zero => simp [toLittle, ofLittle, Nat.mod_one]
  | succ size ih =>
    have hb : (UInt8.ofNat (x % 256)).toNat = x % 256 := by
      simp
    rw [toLittle, ofLittle, hb, ih, Nat.pow_succ, Nat.mul_comm (256 ^ size) 256, Nat.mod_mul]

/-- Reading what was written gives the value modulo the width, in either byte order. -/
theorem read_write (order : ByteOrder) (size x : Nat) :
    read order (write order size x) = x % 256 ^ size := by
  cases order <;> simp [read, write, ofLittle_toLittle]

end LuaAssembly.Sized
