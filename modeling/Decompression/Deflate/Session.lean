import Decompression.Deflate.Primitive

/-!
# Deflate Sessions

A session holds the state of the primitive and nothing else. There is one number for all
errors, and no code is a failure: that there were no bytes only means that the step goes
on like any other.

## Main definitions

* `Error.report`: An error as a failure of a step.
* `ReturnCode.status`: What a code stands for.
* `adapter`: Sessions of a primitive with these answers.
* `Session`: The state of a session.
* `Session.step`: One step, from cursor to cursor.
* `codec`: The two codecs, with and without header and checksum.
-/

namespace Decompression.Deflate

/-- A stream that cannot be decoded. -/
def dataError : Int :=
  -3

/-- An error as a failure of a step. -/
def Error.report (e : Error) : StepError :=
  .ofText dataError e.text

/-- What a code stands for. -/
def ReturnCode.status : ReturnCode → Status
  | .ok | .bufError => .progress
  | .streamEnd => .streamEnd

/-- Sessions of a primitive with these answers. -/
def adapter {P : Type} (p : Primitive P ReturnCode Error) : Adapter P ReturnCode Error where
  toPrimitive := p
  report := Error.report
  conclude code := .ok code.status

/-- The state of a session. -/
abbrev Session : Type :=
  Decompressor

/-- One step from one cursor to another. -/
def Session.step : Session → Cursor → Cursor → Stepped Session :=
  (adapter primitive).step

/-- The codec for plain streams, or for streams with header and checksum. -/
def codec (wrapped : Bool) : Codec Session Unit where
  name := if wrapped then "zlib" else "deflate"
  start memory := (.ok (.start wrapped), memory)
  stop _ memory := memory
  step := Session.step
  totalOut := primitive.totalOut

end Decompression.Deflate
