import Decompression.Deflate.Engine
import Decompression.Primitive

/-!
# The Deflate Primitive

The primitive decodes into its window first and delivers from there. A pass runs the
machine up to the end of the window at most; what it decoded is delivered as far as
there is room, and the rest is pending. Nothing more is decoded while anything is
pending, so a call either delivers what is pending or makes passes, and makes another
one only if there is input and room left.

What a pass decoded before the stream turned out to be corrupt is not delivered, but
what there was room for counts as written. A call without any bytes whose machine wants
some answers with a code of its own, although it may have written something.

## Main definitions

* `Error.text`: The text of an error.
* `ReturnCode`: The codes.
* `Decompressor`: The state.
* `Decompressor.deliverPending`: A call that delivers what is pending.
* `Decompressor.passes`: A call that decodes.
* `Decompressor.decompress`: A call.
* `primitive`: The primitive.
-/

namespace Decompression.Deflate

/-- The text of an error. -/
def Error.text : Error → String
  | .corrupt => "deflate decompression error"

/-- What a call that succeeds answers with. -/
inductive ReturnCode where
  /-- It may go on. -/
  | ok
  /-- It may go on, but not without any bytes. -/
  | bufError
  /-- The stream is over. -/
  | streamEnd
  deriving DecidableEq, Repr

/-- The state of the primitive. -/
structure Decompressor where
  /-- The machine, unless it broke down. -/
  engine : Except Error Engine
  /-- Bits that have been read and not been taken in. -/
  held : List Bool
  /-- Bytes that have been decoded and not been delivered. -/
  pending : List UInt8
  /-- How many bytes have been read. -/
  totalIn : Nat
  /-- How many bytes have been written. -/
  totalOut : Nat

namespace Decompressor

/-- The state at the beginning of a stream. -/
def start (wrapped : Bool) : Decompressor :=
  ⟨.ok (.start wrapped), [], [], 0, 0⟩

/-- What a call answers with: the stream is over once nothing is left to deliver. -/
def codeOf (engine : Engine) (pending : List UInt8) (starved : Bool) : ReturnCode :=
  if engine.isDone && pending.isEmpty then .streamEnd else if starved then .bufError else .ok

/-- Delivers what is pending. -/
def deliverPending (engine : Engine) (held : List Bool) (pending : List UInt8)
    (totalIn totalOut room : Nat) : Decompressor × Except Error (Yield ReturnCode) :=
  let data := pending.take room
  let rest := pending.drop room
  (⟨.ok engine, held, rest, totalIn, totalOut + data.length⟩,
    .ok ⟨data, codeOf engine rest false⟩)

/-- Ends a call after its last pass. `sent` is what all its passes delivered, the latest
    byte first, and `given` are the bytes that there were for the last one. -/
def close (halt : Halt Engine) (pending : List UInt8) (totalIn totalOut : Nat)
    (given sent : List UInt8) : Decompressor × Except Error (Yield ReturnCode) :=
  let starved := given.isEmpty && halt.standing == .hungry
  (⟨.ok halt.engine, halt.held, pending, totalIn, totalOut⟩,
    .ok ⟨sent.reverse, codeOf halt.engine pending starved⟩)

/-- Runs passes over the unread bytes. `sent` is what earlier passes of the same call
    delivered, the latest byte first. Every pass but the last fills some of the room, so
    `fuel` past the room is never used up. -/
def passes (fuel : Nat) (engine : Engine) (held : List Bool) (unread : List UInt8)
    (totalIn totalOut room : Nat) (sent : List UInt8) :
    Decompressor × Except Error (Yield ReturnCode) :=
  match machine.run engine engine.window.place held unread with
  | .error breakdown =>
    (⟨.error breakdown.error, [], [], totalIn, totalOut + min breakdown.written room⟩,
      .error breakdown.error)
  | .ok halt =>
    -- The window is delivered from, as far as there is room.
    let decoded := halt.written.reverse
    let data := decoded.take room
    let pending := decoded.drop room
    let rest := unread.drop halt.consumed
    let totalIn := totalIn + halt.consumed
    let totalOut := totalOut + data.length
    let room := room - data.length
    let sent := data.reverse ++ sent
    if halt.engine.isDone || rest.isEmpty || room == 0 || !pending.isEmpty then
      close halt pending totalIn totalOut unread sent
    else
      match fuel with
      | 0 => close halt pending totalIn totalOut unread sent
      | fuel + 1 => passes fuel halt.engine halt.held rest totalIn totalOut room sent

/-- A call. A machine that broke down stays so. -/
def decompress (d : Decompressor) (unread : List UInt8) (room : Nat) :
    Decompressor × Except Error (Yield ReturnCode) :=
  match d with
  | ⟨.error error, held, pending, totalIn, totalOut⟩ =>
    (⟨.error error, held, pending, totalIn, totalOut⟩, .error error)
  | ⟨.ok engine, held, [], totalIn, totalOut⟩ =>
    passes room engine held unread totalIn totalOut room []
  | ⟨.ok engine, held, b :: pending, totalIn, totalOut⟩ =>
    deliverPending engine held (b :: pending) totalIn totalOut room

end Decompressor

/-- The primitive. -/
def primitive : Primitive Decompressor ReturnCode Error where
  decompress := Decompressor.decompress
  totalIn := Decompressor.totalIn
  totalOut := Decompressor.totalOut

end Decompression.Deflate
