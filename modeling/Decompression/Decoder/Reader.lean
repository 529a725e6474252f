import Decompression.Decoder.Push

/-!
# Decoding from a Reader

A buffered reader shows the next bytes before they are taken. Decoding everything
that a reader yields is pushing one buffer after another and taking from the reader
what the session has read — nothing of a buffer whose push failed. It stops after
the end of the stream, unless there may be further members.

## Main definitions

* `ReadItem`: What a reader comes to next.
* `Reader`: A buffered reader, as the list of what it will come to.
* `Reader.fill`, `Reader.consume`: Showing the next bytes, and taking some of them.
* `Decoder.readRound`: Pushing one buffer.
* `Decoder.readAll`: Decoding everything a reader yields.
-/

namespace Decompression

/-- What a reader comes to next. -/
inductive ReadItem where
  /-- A buffer of bytes. -/
  | data (bytes : List UInt8)
  /-- A failure, once. -/
  | fail (cause : IoError)
  deriving DecidableEq, Repr

/-- A buffered reader, as the list of what it will come to. Past the end of the list
    it is at the end of its input. -/
structure Reader where
  /-- What is still to come. -/
  items : List ReadItem
  deriving DecidableEq, Repr

namespace Reader

/-- Shows the bytes that come next; no bytes means the end of the input. A failure is
    shown once, a buffer again and again until it has been taken. -/
def fill (r : Reader) : Except IoError (List UInt8) × Reader :=
  match r.items with
  | [] => (.ok [], r)
  | .data bytes :: _ => (.ok bytes, r)
  | .fail cause :: rest => (.error cause, ⟨rest⟩)

/-- Takes some of the bytes that come next; a buffer taken completely is gone. -/
def consume (r : Reader) (count : Nat) : Reader :=
  match r.items with
  | .data bytes :: rest =>
    if count < bytes.length then ⟨.data (bytes.drop count) :: rest⟩ else ⟨rest⟩
  | items => ⟨items⟩

/-- How many bytes have not been taken. -/
def unread (r : Reader) : Nat :=
  (r.items.map fun
    | .data bytes => bytes.length
    | .fail _ => 0).foldr (· + ·) 0

end Reader

namespace Decoder

variable {S M : Type} {c : Codec S M} {σ : Type} [Sink σ]

/-- The state of decoding from a reader between two buffers, or its end. -/
abbrev ReadRound (c : Codec S M) (σ : Type) : Type :=
  Round Event (Scene c Reader σ) (Turn c Reader σ Unit)

/-- Ends decoding from a reader with the outcome of a call on the decoder. -/
def endRead (o : Outcome c Unit) (reader : Reader) (sink : σ) : ReadRound c σ :=
  .done o.events ⟨⟨o.decoder, reader, sink⟩, o.result⟩

/-- Pushes one buffer of a reader and takes from the reader what was read of it. -/
def readBuffer (fuel : Nat) (d : Decoder c) (reader : Reader) (buffer : List UInt8) (sink : σ) :
    Except Fault (ReadRound c σ) :=
  match d.push fuel buffer sink with
  | .error fault => .error fault
  | .ok ⟨events, ⟨⟨d, _, sink⟩, .error error⟩⟩ =>
    .ok (.done events ⟨⟨d, reader, sink⟩, .error error⟩)
  | .ok ⟨events, ⟨⟨d, input, sink⟩, .ok ended⟩⟩ =>
    -- Only now is it known how much of the buffer belongs to the stream.
    let reader := reader.consume input.index
    if ended && !d.multipleMembers then .ok (.done events ⟨⟨d, reader, sink⟩, .ok ()⟩)
    else .ok (.again events ⟨d, reader, sink⟩)

/-- Deals with the next thing that a reader comes to. Being interrupted means nothing. -/
def readRound (fuel : Nat) : Scene c Reader σ → Except Fault (ReadRound c σ)
  | ⟨d, reader, sink⟩ =>
    match reader.fill with
    | (.error cause, reader) =>
      if cause.kind = .interrupted then .ok (.again [] ⟨d, reader, sink⟩)
      else .ok (endRead (d.fail (.input cause)) reader sink)
    | (.ok [], reader) => .ok (endRead d.finish reader sink)
    | (.ok (b :: bs), reader) => readBuffer fuel d reader (b :: bs) sink

/-- Decodes everything a reader yields. -/
def readAll (d : Decoder c) (fuel : Nat) (reader : Reader) (sink : σ) :
    Except Fault (Logged Event (Turn c Reader σ Unit)) :=
  Loop.run (readRound fuel) fuel ⟨d, reader, sink⟩

end Decoder

end Decompression
