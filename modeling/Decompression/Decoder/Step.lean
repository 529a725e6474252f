import Decompression.Decoder.Basic
import Decompression.Loop
import Decompression.Sink.Basic

/-!
# Steps of a Decoder

One step of a decoder produces at most one chunk. It asks for a buffer, lets the
session decode into it, and makes a chunk of what the session wrote. The answer says
whether more output may come from the same input, whether the stream is over, or
whether more input is needed.

A decoder that has finished a stream and meets more input either goes on with a
further member, if it may, or hands the input to the finished session. A further
member that is over without having produced anything is passed over, so one step may
go through several of them; that is the only loop here.

The session is trusted with nothing. Where its cursors or its count of the output
cannot be right, the step has no answer at all, and the `Fault` says why.

## Main definitions

* `Progress`: The answer of a step.
* `Scene`, `Turn`: What a step works on, and what it leaves behind.
* `Decoder.enter`: What happens before a buffer is asked for.
* `Decoder.request`: Asking for a buffer.
* `Decoder.runSession`: Running the session once.
* `Decoder.conclude`: What is made of a successful step of the session.
* `Decoder.attempt`: One step of the session, with all that goes before and after.
* `Decoder.step`: A step of the decoder.
* `Decoder.next`: A step into a buffer of zeros.
-/

namespace Decompression

/-- The answer of a step. -/
inductive Progress where
  /-- A chunk was produced; the same input may give more. -/
  | chunk (chunk : Chunk)
  /-- The stream is over, perhaps with a last chunk. -/
  | ended (last : Option Chunk)
  /-- Nothing comes out until there is more input. -/
  | needInput
  deriving DecidableEq, Repr

variable {S M : Type}

/-- What a call works on: a decoder, some input, and a sink. -/
structure Scene (c : Codec S M) (ι σ : Type) where
  /-- The decoder. -/
  decoder : Decoder c
  /-- Where the input comes from. -/
  input : ι
  /-- Where the output goes. -/
  sink : σ

/-- What a call leaves behind. -/
structure Turn (c : Codec S M) (ι σ α : Type) extends Scene c ι σ where
  /-- The answer. -/
  result : Except DecodeError α

/-- The number of different offsets: they are 64-bit numbers. -/
def offsetLimit : Nat :=
  1 <<< 64

/-- Adds to an offset. -/
def addOffset (offset amount : Nat) : Except Fault Nat :=
  if offset + amount < offsetLimit then .ok (offset + amount) else .error .offsetOverflow

/-- Takes away from an offset. -/
def subOffset (offset amount : Nat) : Except Fault Nat :=
  if amount ≤ offset then .ok (offset - amount) else .error .offsetOverflow

/-- A way to get a buffer for an offset and a size. -/
abbrev Allocator (σ : Type) : Type :=
  σ → Nat → Nat → Except IoError (List UInt8) × σ

namespace Decoder

variable {c : Codec S M} {σ : Type}

/-- How a step begins: with a session to run, or with an answer already. -/
inductive Entry (c : Codec S M) where
  /-- Go on with this decoder. -/
  | go (events : List Event) (decoder : Decoder c)
  /-- There is nothing to run. -/
  | stop (outcome : Outcome c Progress)

/-- What happens before a buffer is asked for. A finished stream without further
    input stays finished; with further input a decoder of several members starts
    the next one. -/
def enter (d : Decoder c) (input : Cursor) : Except Fault (Entry c) :=
  if d.finished then
    match input.rest? with
    | none => .error .inputOverrun
    | some [] => .ok (.stop ⟨d, [], .ok (.ended none)⟩)
    | some (_ :: _) =>
      if d.multipleMembers then
        match d.nextMember with
        | ⟨d, events, .ok ()⟩ => .ok (.go events d)
        | ⟨d, events, .error error⟩ => .ok (.stop ⟨d, events, .error error⟩)
      else .ok (.go [] d)
  else .ok (.go [] d)

/-- A buffer that does not have the size that was asked for. -/
def wrongSize (expected actual : Nat) : IoError :=
  ⟨.other, "expected a " ++ toString expected ++ " byte buffer, got " ++ toString actual ++
    " bytes"⟩

/-- Asks for a buffer at the current offset; one of another size is as bad as none. -/
def request (alloc : Allocator σ) (d : Decoder c) (sink : σ) :
    Except DecodeError (List UInt8) × σ :=
  match alloc sink d.outputOffset d.bufferSize.toNat with
  | (.ok buffer, sink) =>
    if buffer.length = d.bufferSize.toNat then (.ok buffer, sink)
    else (.error (.alloc (wrongSize d.bufferSize.toNat buffer.length)), sink)
  | (.error cause, sink) => (.error (.alloc cause), sink)

/-- The offset of a chunk of `produced` bytes that the session has just written. -/
def chunkOffset (d : Decoder c) (produced : Nat) : Except Fault Nat := do
  let total ← addOffset d.memberBase (d.session.elim 0 c.totalOut)
  subOffset total produced

/-- Moves the output offset past a chunk, and compares it with the session's count. -/
def moveBy (d : Decoder c) (produced : Nat) : Except Fault (Decoder c) := do
  let offset ← addOffset d.outputOffset produced
  match d.session with
  | none => .error .offsetMismatch
  | some s =>
    let total ← addOffset d.memberBase (c.totalOut s)
    if offset = total then .ok { d with outputOffset := offset } else .error .offsetMismatch

/-- What a step of the session comes to: another step is needed, or the answer of
    the decoder's step is known. -/
inductive Verdict (c : Codec S M) where
  /-- The member was over without output, and there is more input. -/
  | again (decoder : Decoder c)
  /-- The answer is known. -/
  | answer (outcome : Outcome c Progress)

/-- There is input for a further member. -/
def hasFurtherMember (d : Decoder c) (input : Cursor) : Bool :=
  d.multipleMembers && !input.rest.isEmpty

/-- What is made of a step of the session that wrote nothing. -/
def concludeEmpty (d : Decoder c) (input : Cursor) (status : Status) : Verdict c :=
  match status with
  | .progress => .answer ⟨d, [], .ok .needInput⟩
  | .streamEnd =>
    if d.hasFurtherMember input then .again d else .answer ⟨d, [], .ok (.ended none)⟩

/-- What is made of a step of the session that wrote a chunk. -/
def concludeChunk (d : Decoder c) (input : Cursor) (status : Status) (data : List UInt8) :
    Except Fault (Outcome c Progress) := do
  let offset ← d.chunkOffset data.length
  let d ← d.moveBy data.length
  let produced := Event.chunkProduced offset data.length
  match status with
  | .progress => .ok ⟨d, [produced], .ok (.chunk ⟨offset, data⟩)⟩
  | .streamEnd =>
    if d.hasFurtherMember input then .ok ⟨d, [produced], .ok (.chunk ⟨offset, data⟩)⟩
    else .ok ⟨d, [produced, .streamEnded d.outputOffset], .ok (.ended (some ⟨offset, data⟩))⟩

/-- Notes that the session has reached the end of its stream, if it has. -/
def noteStatus (d : Decoder c) : Status → Decoder c
  | .progress => d
  | .streamEnd => { d with finished := true }

/-- What is made of a successful step of the session. -/
def conclude (d : Decoder c) (input output : Cursor) (status : Status) :
    Except Fault (Verdict c) :=
  let d := d.noteStatus status
  match output.front? with
  | none => .error .outputOverrun
  | some [] => .ok (d.concludeEmpty input status)
  -- A chunk is what lies before the output cursor, whatever else is in the buffer.
  | some (b :: bs) => (d.concludeChunk input status (b :: bs)).map .answer

/-- Lends the session out, and leaves the decoder without one until it comes back. -/
def lend? (d : Decoder c) : Option (S × Decoder c) :=
  match d.session with
  | some s => some (s, { d with session := none })
  | none => none

/-- Puts a session back after a step that moved the input cursor from `before` to `after`. -/
def returnSession (d : Decoder c) (s : S) (before after : Cursor) : Decoder c :=
  { d with session := some s, consumed := d.consumed || decide (before.index < after.index) }

/-- Runs a session once into a buffer. The decoder has lent the session out. -/
def runSession (d : Decoder c) (s : S) (input : Cursor) (buffer : List UInt8) :
    Except Fault (Verdict c × Cursor) :=
  if input.InBounds then
    let stepped := c.step s input (.ofBytes buffer)
    if stepped.input.InBounds then
      let d := d.returnSession stepped.session input stepped.input
      match stepped.outcome with
      -- Whatever a failing step wrote is dropped with its buffer.
      | .error error => .ok (.answer (d.fail (.ofStep error)), stepped.input)
      | .ok status =>
        (d.conclude stepped.input stepped.output status).map fun v => (v, stepped.input)
    else .error .inputOverrun
  else .error .inputOverrun

/-- Ends a step with an answer. -/
def answer (events : List Event) (o : Outcome c Progress) (input : Cursor) (sink : σ) :
    Round Event (Scene c Cursor σ) (Turn c Cursor σ Progress) :=
  .done (events ++ o.events) ⟨⟨o.decoder, input, sink⟩, o.result⟩

/-- One step of the session, with all that goes before and after. -/
def attempt (alloc : Allocator σ) :
    Scene c Cursor σ → Except Fault (Round Event (Scene c Cursor σ) (Turn c Cursor σ Progress))
  | ⟨d, input, sink⟩ =>
    match d.enter input with
    | .error fault => .error fault
    -- Nothing is asked of the sink unless there is a session to run.
    | .ok (.stop o) => .ok (answer [] o input sink)
    | .ok (.go events d) =>
      match d.request alloc sink with
      | (.error error, sink) => .ok (answer events (d.fail error) input sink)
      | (.ok buffer, sink) =>
        match d.lend? with
        -- `enter` leaves a session in every decoder that had one, so this is never met.
        | none => .ok (answer events ⟨d, [], .error .notReady⟩ input sink)
        | some (s, lent) =>
          match lent.runSession s input buffer with
          | .error fault => .error fault
          | .ok (.again d, input) => .ok (.again events ⟨d, input, sink⟩)
          | .ok (.answer o, input) => .ok (answer events o input sink)

/-- A step of the decoder: at most one chunk, in a buffer from `alloc`. -/
def step (fuel : Nat) (alloc : Allocator σ) (w : Scene c Cursor σ) :
    Except Fault (Logged Event (Turn c Cursor σ Progress)) :=
  if w.decoder.isReady then Loop.run (attempt alloc) fuel w
  else .ok ⟨[.notReady], ⟨w, .error .notReady⟩⟩

/-- The allocator of a caller that takes chunks itself: every buffer is zeros. -/
def zeroAllocator : Allocator Unit :=
  fun sink _ size => (.ok (Sink.zeroed size), sink)

/-- A step into a buffer of zeros, for callers that ask for one chunk at a time. -/
def next (d : Decoder c) (fuel : Nat) (input : Cursor) :
    Except Fault (Logged Event (Turn c Cursor Unit Progress)) :=
  step fuel zeroAllocator ⟨d, input, ()⟩

end Decoder

end Decompression
