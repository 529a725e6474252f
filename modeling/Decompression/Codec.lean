import Decompression.Cursor
import Decompression.IoError

/-!
# Codecs

The seam between the chunk loop and a decompression primitive. A codec starts
sessions; a session decodes one compressed stream, a step at a time, each step
reading at one cursor and writing at another.

Nothing here constrains what a step does. It may leave a cursor out of bounds or
report any total; the chunk loop has to cope with that, and what it needs from a
primitive to work well is said as hypotheses where it is needed.

A codec also has a memory of its own, which outlives its sessions. It sees every
session start and end, so it can hand out sessions that differ, refuse to start
one, or count them.

## Main definitions

* `Status`: How a successful step ended.
* `StepError`: Why a step failed.
* `Stepped`: Everything a step leaves behind.
* `Codec`: A way to start, step and end sessions.
-/

namespace Decompression

/-- How a successful step ended. -/
inductive Status where
  /-- More input or more room may be needed to get further. -/
  | progress
  /-- The compressed stream is over; the session reads no more input. -/
  | streamEnd
  deriving DecidableEq, Repr, Inhabited

/-- A failure from which a session does not recover. -/
structure StepError where
  /-- The number by which the primitive knows the failure. -/
  code : Int
  /-- What the primitive reported. -/
  source : IoError
  deriving DecidableEq, Repr, Inhabited

namespace StepError

/-- A failure with a numeric code and a text. -/
def ofText (code : Int) (text : String) : StepError :=
  ⟨code, ⟨.invalidData, text⟩⟩

/-- The text of a step's failure. -/
def message (e : StepError) : String :=
  e.source.message ++ " (error code " ++ toString e.code ++ ")"

end StepError

/-- What one step of a session leaves behind. The cursors may have moved even
    though the step failed. -/
structure Stepped (S : Type) where
  /-- The session afterwards. -/
  session : S
  /-- The input, with what was read before the position. -/
  input : Cursor
  /-- The output buffer, with what was written before the position. -/
  output : Cursor
  /-- How the step ended. -/
  outcome : Except StepError Status

/-- A decompression primitive with sessions in `S` and a memory of its own in `M`. -/
structure Codec (S M : Type) where
  /-- A short name for the algorithm. -/
  name : String
  /-- Starts a session, or refuses to. -/
  start : M → Except IoError S × M
  /-- Ends a session. -/
  stop : S → M → M
  /-- Runs a session once, from the input into the output buffer. -/
  step : S → Cursor → Cursor → Stepped S
  /-- How many bytes a session has produced so far. -/
  totalOut : S → Nat

end Decompression
