import Decompression.Codec

/-!
# Decoding Errors

Why a decoder gave up, by cause. Every cause other than `start` and `notReady` is
reported after the decoder has already tried to start over, so that it can be used
for another stream.

## Main definitions

* `DecodeError`: The causes.
* `DecodeError.message`: The text of an error.
* `DecodeError.sources`: The texts of what lies behind it.
* `DecodeError.toIoError`: The error as a failure of input or output.
-/

namespace Decompression

/-- Why a decoder gave up. -/
inductive DecodeError where
  /-- The primitive refused to start a session. -/
  | start (cause : IoError)
  /-- There is no live session; nothing was read. -/
  | notReady
  /-- The primitive could not decode its input. -/
  | decode (code : Int) (cause : IoError)
  /-- There was no output buffer of the size asked for. -/
  | alloc (cause : IoError)
  /-- The sink did not take a chunk. -/
  | sink (cause : IoError)
  /-- The reader failed. -/
  | input (cause : IoError)
  /-- The input ended within a compressed stream. -/
  | truncated (offset : Nat)
  deriving DecidableEq, Repr

namespace DecodeError

/-- A failed step, as a reason to give up. -/
def ofStep (e : StepError) : DecodeError :=
  .decode e.code e.source

/-- The primitive's number for the failure, if the primitive failed. -/
def code? : DecodeError → Option Int
  | .decode code _ => some code
  | _ => none

/-- The text of an error. -/
def message : DecodeError → String
  | .start cause => "failed to start decompression: " ++ cause.message
  | .notReady => "decompressor not ready"
  | .decode code _ => "failed to decompress data (error code " ++ toString code ++ ")"
  | .alloc cause => "failed to allocate output buffer: " ++ cause.message
  | .sink cause => "failed to push output chunk: " ++ cause.message
  | .input cause => "failed to read input: " ++ cause.message
  | .truncated offset =>
    "compressed stream truncated after " ++ toString offset ++ " decoded bytes"

/-- What lies behind an error, the nearest cause first. -/
def sources : DecodeError → List IoError
  | .start cause | .decode _ cause | .alloc cause | .sink cause | .input cause => [cause]
  | .notReady | .truncated _ => []

/-- An error as a failure of input or output. Failures that came from outside are
    handed back as they were; the others get a kind of their own. -/
def toIoError : DecodeError → IoError
  | .input cause | .sink cause | .alloc cause => cause
  | .decode code cause => ⟨.invalidData, (DecodeError.decode code cause).message⟩
  | .truncated offset => ⟨.unexpectedEof, (DecodeError.truncated offset).message⟩
  | .start cause => ⟨.other, (DecodeError.start cause).message⟩
  | .notReady => ⟨.other, DecodeError.notReady.message⟩

end DecodeError

end Decompression
