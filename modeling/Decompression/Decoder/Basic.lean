import Decompression.Chunk
import Decompression.Event

/-!
# Decoders

A decoder drives the sessions of one codec. It knows how far the decompressed stream
has come, where the current member of it began, and whether its session has read
anything or has reached its end.

This file holds the state and what starts and ends sessions. A decoder starts out
without a session; `reset` gives it a fresh one and sets the offsets back to zero,
`nextMember` gives it a fresh one and keeps the offset, and `release` takes the
session away. Only starting a session clears the two flags, so they describe the
last session that was asked for, whether it is still alive or not.

Everything that goes wrong while decoding ends in `fail`, which notes the error and
resets the decoder. The error that is reported is always the first one: a reset that
fails too is noted, and leaves the decoder without a session.

## Main definitions

* `BufferSize`: A positive number of bytes.
* `Decoder`: The state of a decoder over a given codec.
* `Outcome`: What a call on a decoder leaves behind.
* `Decoder.idle`, `Decoder.create`: A decoder without a session, and with one.
* `Decoder.reset`, `Decoder.nextMember`, `Decoder.release`: Session changes.
* `Decoder.fail`: The way out of every failure.
* `Decoder.finish`: Checks that the input did not end within a stream.
* `Decoder.describe`: The decoder, written out.
-/

namespace Decompression

/-- A positive number of bytes: the most that a chunk may hold. -/
structure BufferSize where
  /-- The number of bytes. -/
  toNat : Nat
  /-- A buffer holds at least one byte. -/
  pos : 0 < toNat
  deriving DecidableEq

namespace BufferSize

/-- The size chunks have unless another is chosen. -/
def standard : BufferSize :=
  ⟨1024, by decide⟩

instance : Inhabited BufferSize :=
  ⟨standard⟩

/-- A number of bytes as a size, if it is positive. -/
def ofNat? (n : Nat) : Option BufferSize :=
  if h : 0 < n then some ⟨n, h⟩ else none

end BufferSize

variable {S M : Type}

/-- The state of a decoder over the codec `c`. -/
structure Decoder (c : Codec S M) where
  /-- What the codec remembers. -/
  memory : M
  /-- The live session. -/
  session : Option S
  /-- How many bytes have been handed out since the last reset. -/
  outputOffset : Nat
  /-- The offset at which the current member began. -/
  memberBase : Nat
  /-- The session has read input since it was started. -/
  consumed : Bool
  /-- The session has reached the end of its stream. -/
  finished : Bool
  /-- The most that a chunk may hold. -/
  bufferSize : BufferSize
  /-- Input after the end of a stream is a further member of it. -/
  multipleMembers : Bool

/-- What a call on a decoder leaves behind. -/
structure Outcome (c : Codec S M) (α : Type) where
  /-- The decoder afterwards. -/
  decoder : Decoder c
  /-- What was noted, in order. -/
  events : List Event
  /-- The answer. -/
  result : Except DecodeError α

namespace Decoder

variable {c : Codec S M}

/-- A decoder that has not been given a session. -/
def idle (c : Codec S M) (memory : M) : Decoder c where
  memory := memory
  session := none
  outputOffset := 0
  memberBase := 0
  consumed := false
  finished := false
  bufferSize := .standard
  multipleMembers := false

/-- There is a live session. -/
def isReady (d : Decoder c) : Bool :=
  d.session.isSome

/-- The last session has read some of a stream, and not all of it. -/
def isPending (d : Decoder c) : Bool :=
  d.consumed && !d.finished

/-- Ends the session, if there is one. The offsets and flags stay. -/
def endSession (d : Decoder c) : Decoder c :=
  match d.session with
  | some s => { d with memory := c.stop s d.memory, session := none }
  | none => d

/-- Starts a session in a decoder that has none. -/
def beginSession (d : Decoder c) : Except IoError Unit × Decoder c :=
  let cleared : Decoder c := { d with consumed := false, finished := false }
  match c.start d.memory with
  | (.ok s, memory) => (.ok (), { cleared with memory := memory, session := some s })
  | (.error cause, memory) => (.error cause, { cleared with memory := memory, session := none })

/-- Replaces the session by a fresh one and starts a new stream at offset zero. -/
def reset (d : Decoder c) : Outcome c Unit :=
  match beginSession (c := c) { d.endSession with outputOffset := 0, memberBase := 0 } with
  | (.ok (), d) => ⟨d, [.sessionStarted], .ok ()⟩
  | (.error cause, d) => ⟨d, [.startFailed (.start cause)], .error (.start cause)⟩

/-- Replaces the session by a fresh one for a further member of the same stream. -/
def nextMember (d : Decoder c) : Outcome c Unit :=
  match beginSession (c := c) { d.endSession with memberBase := d.outputOffset } with
  | (.ok (), d') => ⟨d', [.nextMember d.outputOffset], .ok ()⟩
  | (.error cause, d') =>
    ⟨d', [.nextMember d.outputOffset, .startFailed (.start cause)], .error (.start cause)⟩

/-- Takes the session away. -/
def release (d : Decoder c) : Outcome c Unit :=
  ⟨d.endSession, if d.isReady then [.sessionEnded d.outputOffset] else [], .ok ()⟩

/-- A decoder with a session. -/
def create (c : Codec S M) (memory : M) : Outcome c Unit :=
  (idle c memory).reset

/-- Resets the decoder after a failure that has been noted. -/
def failAfter {α : Type} (d : Decoder c) (noted : Event) (error : DecodeError) : Outcome c α :=
  let o := d.reset
  ⟨o.decoder, noted :: o.events, .error error⟩

/-- Notes a failure and resets the decoder. -/
def fail {α : Type} (d : Decoder c) (error : DecodeError) : Outcome c α :=
  d.failAfter (.failed error) error

/-- Checks that the input did not end within a stream, and fails if it did. -/
def finish (d : Decoder c) : Outcome c Unit :=
  -- The flags outlive the session, so a decoder without one can still be within a stream.
  if d.isPending then d.fail (.truncated d.outputOffset) else ⟨d, [], .ok ()⟩

/-- What the codec remembers once the decoder is no longer needed. -/
def retire (d : Decoder c) : M :=
  d.endSession.memory

/-- A truth value, written out. -/
def describeBool (b : Bool) : String :=
  if b then "true" else "false"

/-- The decoder, written out. -/
def describe (d : Decoder c) : String :=
  "ChunkDecoder \x7b codec: \"" ++ c.name ++ "\", ready: " ++ describeBool d.isReady ++
    ", output_offset: " ++ toString d.outputOffset ++ ", buffer_size: " ++
    toString d.bufferSize.toNat ++ ", multiple_members: " ++ describeBool d.multipleMembers ++
    " \x7d"

end Decoder

end Decompression
