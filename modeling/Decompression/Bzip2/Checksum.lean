/-!
# Block Checksums

Every block carries a 32-bit cyclic redundancy check of its bytes, the bit of greatest
value first. The check of the whole stream is made of those of its blocks.

## Main definitions

* `Checksum`: A check that is being computed.
* `Checksum.push`, `Checksum.value`: Takes in a byte; the check.
* `combine`: Adds the check of a block to that of the stream.
-/

namespace Decompression.Bzip2

/-- A check that is being computed. -/
structure Checksum where
  /-- The remainder so far. -/
  remainder : UInt32
  deriving DecidableEq, Repr

namespace Checksum

/-- The polynomial, without its leading term. -/
def polynomial : UInt32 :=
  0x04c11db7

/-- The check of nothing. -/
def empty : Checksum :=
  ⟨0xffffffff⟩

/-- Divides by the polynomial, so many places on. -/
def shift : Nat → UInt32 → UInt32
  | 0, r => r
  | places + 1, r => shift places (if r < 0x80000000 then r <<< 1 else (r <<< 1) ^^^ polynomial)

/-- Takes in a byte. -/
def push (c : Checksum) (b : UInt8) : Checksum :=
  ⟨shift 8 (c.remainder ^^^ (b.toUInt32 <<< 24))⟩

/-- The check. -/
def value (c : Checksum) : UInt32 :=
  c.remainder ^^^ 0xffffffff

end Checksum

/-- Adds the check of a block to that of the stream. -/
def combine (stream block : UInt32) : UInt32 :=
  ((stream <<< 1) ||| (stream >>> 31)) ^^^ block

end Decompression.Bzip2
