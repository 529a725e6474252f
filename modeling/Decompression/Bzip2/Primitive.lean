import Decompression.Bzip2.Engine
import Decompression.Primitive

/-!
# The Bzip2 Primitive

A call runs the machine over the unread bytes, with all the room that there is. What a
failing call wrote is lost, but it counts as written. A call after the end of the stream
is a failure of its own.

Compression answers with further codes, and so does a call that runs out of memory.

## Main definitions

* `Error.text`: The text of an error.
* `ReturnCode`: The codes.
* `Decompressor`: The state.
* `Decompressor.decompress`: A call.
* `primitive`: The primitive.
-/

namespace Decompression.Bzip2

/-- The text of an error. -/
def Error.text : Error → String
  | .sequence => "bzip2: sequence of operations invalid"
  | .data => "bzip2: invalid data"
  | .dataMagic => "bzip2: bz2 header missing"
  | .param => "bzip2: invalid parameters"
  | .other text => text

/-- What a call that succeeds answers with. -/
inductive ReturnCode where
  /-- It may go on. -/
  | ok
  /-- The flush goes on. -/
  | flushOk
  /-- The compression goes on. -/
  | runOk
  /-- The end of the compression goes on. -/
  | finishOk
  /-- The stream is over. -/
  | streamEnd
  /-- There was not enough memory. -/
  | memNeeded
  deriving DecidableEq, Repr

/-- The state of the primitive. -/
structure Decompressor where
  /-- The machine, unless it broke down. -/
  engine : Except Error Engine
  /-- Bits that have been read and not been taken in. -/
  held : List Bool
  /-- How many bytes have been read. -/
  totalIn : Nat
  /-- How many bytes have been written. -/
  totalOut : Nat

namespace Decompressor

/-- The state at the beginning of a stream. -/
def start (bytewise : Bool) : Decompressor :=
  ⟨.ok (.start bytewise), [], 0, 0⟩

/-- What a call answers with that has run the machine. -/
def codeOf : Standing → ReturnCode
  | .done => .streamEnd
  | _ => .ok

/-- A call while the machine is still alive. -/
def advance (engine : Engine) (held : List Bool) (totalIn totalOut : Nat) (unread : List UInt8)
    (room : Nat) : Decompressor × Except Error (Yield ReturnCode) :=
  if engine.phase.isDone then (⟨.ok engine, held, totalIn, totalOut⟩, .error .sequence)
  else
    match machine.run engine room held unread with
    | .error breakdown =>
      (⟨.error breakdown.error, [], totalIn, totalOut + breakdown.written⟩,
        .error breakdown.error)
    | .ok halt =>
      let data := halt.written.reverse
      (⟨.ok halt.engine, halt.held, totalIn + halt.consumed, totalOut + data.length⟩,
        .ok ⟨data, codeOf halt.standing⟩)

/-- A call. A machine that broke down stays so. -/
def decompress (d : Decompressor) (unread : List UInt8) (room : Nat) :
    Decompressor × Except Error (Yield ReturnCode) :=
  match d with
  | ⟨.error error, held, totalIn, totalOut⟩ =>
    (⟨.error error, held, totalIn, totalOut⟩, .error error)
  | ⟨.ok engine, held, totalIn, totalOut⟩ => advance engine held totalIn totalOut unread room

end Decompressor

/-- The primitive. -/
def primitive : Primitive Decompressor ReturnCode Error where
  decompress := Decompressor.decompress
  totalIn := Decompressor.totalIn
  totalOut := Decompressor.totalOut

end Decompression.Bzip2
