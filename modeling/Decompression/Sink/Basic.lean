import Decompression.Chunk
import Decompression.IoError

/-!
# Sinks

The downstream side of a decoder: it provides the buffers that output is decoded
into, and takes the chunks, one at a time and in the order of their offsets. Either
may fail, and the decoder then gives up on the input it was given.

## Main definitions

* `Sink`: Something that provides buffers and takes chunks.
* `Sink.zeroed`: A buffer of zeros.
-/

namespace Decompression

/-- A buffer of zeros. -/
def Sink.zeroed (size : Nat) : List UInt8 :=
  List.replicate size 0

/-- Something that provides buffers and takes chunks. Both may change it, also
    when they fail. -/
class Sink (σ : Type) where
  /-- Provides a buffer of exactly `size` bytes for the chunk that will start at
      `offset`, or fails. -/
  alloc (sink : σ) (offset size : Nat) : Except IoError (List UInt8) × σ :=
    (.ok (Sink.zeroed size), sink)
  /-- Takes a chunk, or fails. -/
  push (sink : σ) (chunk : Chunk) : Except IoError Unit × σ

/-- An array takes every chunk and keeps it, the latest last. -/
instance : Sink (Array Chunk) where
  push chunks chunk := (.ok (), chunks.push chunk)

end Decompression
