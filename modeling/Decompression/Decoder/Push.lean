import Decompression.Decoder.Step
import Decompression.Sink.Basic

/-!
# Pushing Input

A push decodes one piece of input completely. Every chunk goes to the sink before
the next buffer is asked for, so at most one buffer is in use at a time. The answer
says whether the end of the compressed stream was reached.

## Main definitions

* `Decoder.deliver`: Hands a chunk to the sink.
* `Decoder.pushRound`: One step and the delivery of its chunk.
* `Decoder.pushCursor`: A push, with the cursor that shows how much was read.
* `Decoder.push`: A push of some bytes.
-/

namespace Decompression.Decoder

variable {S M : Type} {c : Codec S M} {σ : Type} [Sink σ]

/-- Hands a chunk to the sink; if it is refused, the decoder is reset. -/
def deliver (d : Decoder c) (sink : σ) (chunk : Chunk) : Outcome c Unit × σ :=
  match Sink.push sink chunk with
  | (.ok (), sink) => (⟨d, [], .ok ()⟩, sink)
  | (.error cause, sink) =>
    (d.failAfter (.chunkRejected chunk.offset cause) (.sink cause), sink)

/-- The state of a push between two steps, or its end. -/
abbrev PushRound (c : Codec S M) (σ : Type) : Type :=
  Round Event (Scene c Cursor σ) (Turn c Cursor σ Bool)

/-- Hands the chunk of a step to the sink and goes on, or ends with `true` if it is the last. -/
def deliverThen (last : Bool) (events : List Event) (chunk : Chunk) :
    Scene c Cursor σ → PushRound c σ
  | ⟨d, input, sink⟩ =>
    match d.deliver sink chunk with
    | (⟨d, more, .error error⟩, sink) => .done (events ++ more) ⟨⟨d, input, sink⟩, .error error⟩
    | (⟨d, more, .ok ()⟩, sink) =>
      if last then .done (events ++ more) ⟨⟨d, input, sink⟩, .ok true⟩
      else .again (events ++ more) ⟨d, input, sink⟩

/-- One step of a push and the delivery of its chunk. -/
def pushRound (fuel : Nat) (w : Scene c Cursor σ) : Except Fault (PushRound c σ) :=
  match step fuel Sink.alloc w with
  | .error fault => .error fault
  | .ok ⟨events, ⟨w, result⟩⟩ =>
    match result with
    | .error error => .ok (.done events ⟨w, .error error⟩)
    | .ok .needInput => .ok (.done events ⟨w, .ok false⟩)
    | .ok (.ended none) => .ok (.done events ⟨w, .ok true⟩)
    | .ok (.ended (some chunk)) => .ok (deliverThen true events chunk w)
    | .ok (.chunk chunk) => .ok (deliverThen false events chunk w)

/-- Decodes the input after a cursor completely. -/
def pushCursor (fuel : Nat) (w : Scene c Cursor σ) :
    Except Fault (Logged Event (Turn c Cursor σ Bool)) :=
  Loop.run (pushRound fuel) fuel w

/-- Decodes some bytes completely. The answer is `true` if the compressed stream is over. -/
def push (d : Decoder c) (fuel : Nat) (input : List UInt8) (sink : σ) :
    Except Fault (Logged Event (Turn c Cursor σ Bool)) :=
  pushCursor fuel ⟨d, .ofBytes input, sink⟩

end Decompression.Decoder
