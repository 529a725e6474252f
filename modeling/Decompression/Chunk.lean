/-!
# Output Chunks

A span of decompressed bytes and where it belongs in the decompressed stream.

## Main definitions

* `Chunk`: An offset and the bytes there.
* `Chunk.endOffset`: Where the next chunk has to start.
-/

namespace Decompression

/-- A span of decompressed bytes. -/
structure Chunk where
  /-- Offset of the first byte in the decompressed stream. -/
  offset : Nat
  /-- The bytes. -/
  data : List UInt8
  deriving DecidableEq, Repr, Inhabited

namespace Chunk

/-- How many bytes the chunk holds. -/
def length (c : Chunk) : Nat :=
  c.data.length

/-- Offset one past the last byte, if there is such an offset. -/
def endOffset (c : Chunk) : Nat :=
  c.offset + c.length

end Chunk

end Decompression
