import Decompression.Error

/-!
# Log Events

What a decoder notes about itself while it works, in the order in which it
happens. Events are data: `Event.line` is the only place that knows what they look
like in a log.

## Main definitions

* `Level`: How important an event is.
* `Event`: The things worth noting.
* `Event.level`, `Event.message`, `Event.fields`: What is shown of an event.
* `Event.line`: One line of a log.
-/

namespace Decompression

/-- How important an event is. -/
inductive Level where
  | error
  | debug
  | trace
  deriving DecidableEq, Repr, Inhabited

/-- The name of a level. -/
def Level.name : Level → String
  | .error => "ERROR"
  | .debug => "DEBUG"
  | .trace => "TRACE"

/-- Something a decoder notes about itself. -/
inductive Event where
  /-- A session was started for a new stream. -/
  | sessionStarted
  /-- A session could not be started. -/
  | startFailed (error : DecodeError)
  /-- The session was given up on request. -/
  | sessionEnded (outputOffset : Nat)
  /-- A step was asked for without a session. -/
  | notReady
  /-- Decoding failed, and the decoder starts over. -/
  | failed (error : DecodeError)
  /-- Input goes on after the end of a stream, as a further one. -/
  | nextMember (outputOffset : Nat)
  /-- A chunk was filled. -/
  | chunkProduced (offset length : Nat)
  /-- A chunk was filled by the end of a stream. -/
  | streamEnded (outputOffset : Nat)
  /-- The sink refused a chunk, and the decoder starts over. -/
  | chunkRejected (offset : Nat) (cause : IoError)
  deriving DecidableEq, Repr

namespace Event

/-- How important an event is. -/
def level : Event → Level
  | .startFailed _ | .notReady | .failed _ | .chunkRejected _ _ => .error
  | .sessionStarted | .sessionEnded _ | .nextMember _ | .streamEnded _ => .debug
  | .chunkProduced _ _ => .trace

/-- What an event says. -/
def message : Event → String
  | .sessionStarted => "decompression session started"
  | .startFailed _ => "failed to start decompression"
  | .sessionEnded _ => "decompression session ended"
  | .notReady => "decompressor not ready"
  | .failed _ => "decompression failed"
  | .nextMember _ => "starting next member"
  | .chunkProduced _ _ => "produced chunk"
  | .streamEnded _ => "end of stream"
  | .chunkRejected _ _ => "downstream rejected output chunk"

/-- The named values that go with an event. -/
def fields : Event → List (String × String)
  | .sessionStarted | .notReady => []
  | .startFailed error | .failed error => [("error", error.message)]
  | .sessionEnded offset | .nextMember offset | .streamEnded offset =>
    [("output_offset", toString offset)]
  | .chunkProduced offset length => [("offset", toString offset), ("len", toString length)]
  | .chunkRejected offset cause => [("offset", toString offset), ("error", cause.message)]

/-- The line of a log for an event of a decoder over the named codec. -/
def line (codecName : String) (e : Event) : String :=
  e.level.name ++ " [chunk_decoder codec=" ++ codecName ++ "] " ++ e.message ++
    String.join (e.fields.map fun f => " " ++ f.1 ++ "=" ++ f.2)

end Event

end Decompression
