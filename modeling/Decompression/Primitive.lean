import Decompression.Codec

/-!
# Primitives

What decodes a compressed stream is a primitive that comes from elsewhere. It is called
with the unread bytes and so much room, and answers with a code or an error of its own.
How far it got is no part of the answer. It counts what it has read and what it has
written, and whoever calls it has to compare the counts, which never go down.

An adapter makes a session of a primitive. It moves the cursors by what the counts have
changed, and says what the answers mean. A code may stand for a failure as well, and
then the step fails although the cursors have moved.

## Main definitions

* `Yield`: What a call that succeeds comes to.
* `Primitive`: Something that decodes.
* `Adapter`: A primitive, and what its answers mean.
* `Adapter.step`: One step of a session.
-/

namespace Decompression

/-- What a call that succeeds comes to. -/
structure Yield (R : Type) where
  /-- The bytes that it wrote. -/
  data : List UInt8
  /-- The code that it answered with. -/
  code : R

/-- Something that decodes, with a state in `P`. Its calls answer with codes in `R`, or with errors
    in `ε`. -/
structure Primitive (P R ε : Type) where
  /-- Decodes the unread bytes, as far as there is room. -/
  decompress : P → List UInt8 → Nat → P × Except ε (Yield R)
  /-- How many bytes have been read. -/
  totalIn : P → Nat
  /-- How many bytes have been written. -/
  totalOut : P → Nat

/-- A primitive, and what its answers mean. -/
structure Adapter (P R ε : Type) extends Primitive P R ε where
  /-- The failure that an error is reported as. -/
  report : ε → StepError
  /-- What a code stands for. -/
  conclude : R → Except StepError Status

/-- One step from one cursor to another. They are moved only if the call succeeds, but before its
    code is looked at. -/
def Adapter.step {P R ε : Type} (a : Adapter P R ε) (p : P) (input output : Cursor) : Stepped P :=
  match a.decompress p input.rest output.room with
  | (p', .error error) => ⟨p', input, output, .error (a.report error)⟩
  | (p', .ok yield) =>
    let input := input.advance (a.totalIn p' - a.totalIn p)
    let output := (output.overlay yield.data).advance (a.totalOut p' - a.totalOut p)
    ⟨p', input, output, a.conclude yield.code⟩

end Decompression
