/-!
# Adler-32

The checksum at the end of a wrapped stream: the sum of the bytes plus one, and the
sum of those sums, both modulo the largest prime below 65536.

## Main definitions

* `Adler`: The two sums.
* `Adler.push`: Takes in a byte.
* `Adler.value`: The checksum.
-/

namespace Decompression.Deflate

/-- The two running sums. -/
structure Adler where
  /-- One more than the sum of the bytes. -/
  low : Nat
  /-- The sum of the values of `low`. -/
  high : Nat
  deriving DecidableEq, Repr

namespace Adler

/-- The largest prime below 65536. -/
def modulus : Nat :=
  65521

/-- The sums over nothing. -/
def empty : Adler :=
  ⟨1, 0⟩

/-- Takes in a byte. -/
def push (a : Adler) (b : UInt8) : Adler :=
  let low := (a.low + b.toNat) % modulus
  ⟨low, (a.high + low) % modulus⟩

/-- The checksum, as a number. -/
def value (a : Adler) : Nat :=
  a.high * 65536 + a.low

end Adler

end Decompression.Deflate
