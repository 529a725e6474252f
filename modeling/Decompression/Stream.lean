import Decompression.Decoder.Step

/-!
# Decoded Streams

A stream of output chunks over a stream of input chunks. Each poll gives at most one
output chunk, and the input stream is polled again only when the chunk at hand is
used up, so at most one output buffer is alive however large an input chunk is.

The stream is over after the end of the compressed stream or, with several members,
once the input ends between two of them. Any failure ends it too.

## Main definitions

* `SourceItem`, `Source`: What an input stream answers, poll after poll.
* `StreamPhase`: What a decoded stream does next.
* `DecodedStream`: The state of a decoded stream.
* `Polled`: The answer of a poll.
* `DecodedStream.pollRound`: One move of a decoded stream.
* `DecodedStream.poll`: Moves until there is an answer.
* `DecodedStream.describe`: The stream, written out.
-/

namespace Decompression

/-- What an input stream answers to a poll. -/
inductive SourceItem where
  /-- A chunk of compressed input. -/
  | data (bytes : List UInt8)
  /-- A failure. -/
  | fail (cause : IoError)
  /-- Nothing yet. -/
  | pending
  deriving DecidableEq, Repr

/-- An input stream, as the list of its answers; past the end of the list it is over. -/
structure Source where
  /-- The answers still to come. -/
  items : List SourceItem
  /-- How often it has been polled. -/
  polls : Nat
  deriving DecidableEq, Repr

namespace Source

/-- An input stream that has not been polled. -/
def ofItems (items : List SourceItem) : Source :=
  ⟨items, 0⟩

/-- The next answer; none if the input is over. -/
def poll (s : Source) : Option SourceItem × Source :=
  match s.items with
  | [] => (none, ⟨[], s.polls + 1⟩)
  | item :: rest => (some item, ⟨rest, s.polls + 1⟩)

/-- Lets an input stream go on. -/
def append (s : Source) (items : List SourceItem) : Source :=
  { s with items := s.items ++ items }

end Source

/-- What a decoded stream does next. -/
inductive StreamPhase where
  /-- It polls the input stream. -/
  | reading
  /-- It decodes the input at hand. -/
  | decoding
  /-- Nothing: it is over. -/
  | done
  deriving DecidableEq, Repr

/-- The name of a phase. -/
def StreamPhase.name : StreamPhase → String
  | .reading => "Reading"
  | .decoding => "Decoding"
  | .done => "Done"

variable {S M : Type}

/-- The state of a decoded stream. -/
structure DecodedStream (c : Codec S M) where
  /-- The input stream. -/
  source : Source
  /-- The decoder. -/
  decoder : Decoder c
  /-- The input at hand. -/
  input : Cursor
  /-- What comes next. -/
  phase : StreamPhase

/-- The answer of a poll. -/
inductive Polled where
  /-- Nothing yet. -/
  | pending
  /-- A chunk. -/
  | chunk (chunk : Chunk)
  /-- A failure. -/
  | fail (cause : IoError)
  /-- The stream is over. -/
  | over
  deriving DecidableEq, Repr

namespace DecodedStream

variable {c : Codec S M}

/-- A stream that decodes the chunks of `source` with `decoder`. -/
def ofSource (source : Source) (decoder : Decoder c) : DecodedStream c :=
  ⟨source, decoder, default, .reading⟩

/-- One move of a decoded stream, or an answer. -/
abbrev Move (c : Codec S M) : Type :=
  Round Event (DecodedStream c) (DecodedStream c × Polled)

/-- Polls the input stream. Where the input is over, the decoder has to be between two streams. -/
def readNext (s : DecodedStream c) : Move c :=
  match s.source.poll with
  | (some (.data bytes), source) =>
    .again [] { s with source := source, input := .ofBytes bytes, phase := .decoding }
  | (some (.fail cause), source) =>
    .done [] ({ s with source := source, phase := .done }, .fail cause)
  | (some .pending, source) => .done [] ({ s with source := source }, .pending)
  | (none, source) =>
    match s.decoder.finish with
    | ⟨decoder, events, .ok ()⟩ =>
      .again events { s with source := source, decoder := decoder, phase := .done }
    | ⟨decoder, events, .error error⟩ =>
      .done events
        ({ s with source := source, decoder := decoder, phase := .done }, .fail error.toIoError)

/-- What comes after the end of a compressed stream. -/
def phaseAfterEnd (d : Decoder c) : StreamPhase :=
  if d.multipleMembers then .reading else .done

/-- Decodes the input at hand, up to the next chunk. -/
def decodeNext (fuel : Nat) (source : Source) (d : Decoder c) (input : Cursor) :
    Except Fault (Move c) :=
  match d.next fuel input with
  | .error fault => .error fault
  | .ok ⟨events, ⟨⟨d, input, ()⟩, result⟩⟩ =>
    match result with
    | .error error => .ok (.done events (⟨source, d, input, .done⟩, .fail error.toIoError))
    | .ok .needInput => .ok (.again events ⟨source, d, input, .reading⟩)
    | .ok (.chunk chunk) => .ok (.done events (⟨source, d, input, .decoding⟩, .chunk chunk))
    | .ok (.ended (some chunk)) =>
      .ok (.done events (⟨source, d, input, phaseAfterEnd d⟩, .chunk chunk))
    | .ok (.ended none) => .ok (.again events ⟨source, d, input, phaseAfterEnd d⟩)

/-- One move of a decoded stream. -/
def pollRound (fuel : Nat) : DecodedStream c → Except Fault (Move c)
  | ⟨source, d, input, .reading⟩ => .ok (readNext ⟨source, d, input, .reading⟩)
  | ⟨source, d, input, .decoding⟩ => decodeNext fuel source d input
  | ⟨source, d, input, .done⟩ => .ok (.done [] (⟨source, d, input, .done⟩, .over))

/-- Moves until there is an answer. -/
def poll (s : DecodedStream c) (fuel : Nat) :
    Except Fault (Logged Event (DecodedStream c × Polled)) :=
  Loop.run (pollRound fuel) fuel s

/-- The stream, written out. -/
def describe (s : DecodedStream c) : String :=
  "ChunkStream \x7b stream: Source(" ++ toString s.source.items.length ++ "), decoder: " ++
    s.decoder.describe ++ ", input: " ++ s.input.describeText ++ ", state: " ++ s.phase.name ++
    " \x7d"

end DecodedStream

end Decompression
