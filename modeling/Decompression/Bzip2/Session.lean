import Decompression.Bzip2.Primitive

/-!
# Bzip2 Sessions

A session holds the state of the primitive and nothing else. Every error has a number,
and the codes that are not meant for decompression are failures with a number, too.

## Main definitions

* `Error.report`: An error as a failure of a step.
* `ReturnCode.conclude`: What a code stands for.
* `adapter`: Sessions of a primitive with these answers.
* `Session`: The state of a session.
* `Session.step`: One step.
* `Session.describe`: The session, written out.
* `codec`: The codec.
-/

namespace Decompression.Bzip2

/-- A call that should not have been made. -/
def sequenceError : Int :=
  -1

/-- A choice that is not offered. -/
def paramError : Int :=
  -2

/-- Not enough memory. -/
def memError : Int :=
  -3

/-- A stream that cannot be decoded. -/
def dataError : Int :=
  -4

/-- Something that is not a stream. -/
def dataErrorMagic : Int :=
  -5

/-- The number of an error. -/
def Error.number : Error → Int
  | .sequence => sequenceError
  | .data => dataError
  | .dataMagic => dataErrorMagic
  | .param => paramError
  | .other _ => dataError

/-- An error as a failure of a step. -/
def Error.report (e : Error) : StepError :=
  .ofText e.number e.text

/-- A step of a session that is over. -/
def outOfSequence : StepError :=
  Error.sequence.report

/-- What a code stands for. Those of a compression should never be met. -/
def ReturnCode.conclude : ReturnCode → Except StepError Status
  | .ok => .ok .progress
  | .streamEnd => .ok .streamEnd
  | .flushOk | .runOk | .finishOk =>
    .error (.ofText sequenceError "unexpected compression status")
  | .memNeeded => .error (.ofText memError "out of memory")

/-- Sessions of a primitive with these answers. -/
def adapter {P : Type} (p : Primitive P ReturnCode Error) : Adapter P ReturnCode Error where
  toPrimitive := p
  report := Error.report
  conclude := ReturnCode.conclude

/-- The state of a session. -/
abbrev Session : Type :=
  Decompressor

namespace Session

/-- One step from one cursor to another. -/
def step : Session → Cursor → Cursor → Stepped Session :=
  (adapter primitive).step

/-- The session, written out. -/
def describe (s : Session) : String :=
  "BzSession \x7btotal_in: " ++ toString (primitive.totalIn s) ++ ", total_out: " ++
    toString (primitive.totalOut s) ++ "\x7d"

end Session

/-- The codec. Where memory is short, blocks are written byte by byte. -/
def codec (small : Bool) : Codec Session Unit where
  name := "bzip2"
  start memory := (.ok (.start small), memory)
  stop _ memory := memory
  step := Session.step
  totalOut := primitive.totalOut

end Decompression.Bzip2
