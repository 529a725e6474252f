import Decompression.Sink.Basic

/-!
# Writing Chunks

A writer takes bytes, some at a time. `writeAll` offers it what is left until it has
taken everything; `WriterSink` makes a sink of a writer by writing the chunks one
after another, and refuses a chunk that does not start where the one before it ended.

A writer may take less than it was offered, may be interrupted — which only means
that it has to be asked again — and may fail. It may not be interrupted without end:
`patience` bounds how often that happens between two bytes that it takes, which is
what makes `writeAll` end.

## Main definitions

* `Attempt`: What a writer made of an offer.
* `Writer`: Something that takes bytes.
* `Writer.writeAll`: Writes all of some bytes.
* `WriterSink`: A writer that takes chunks, in order and without gaps.

## Theorems

* `Writer.content_writeAll_ok`: After a success the writer has taken all bytes.
* `Writer.content_writeAll_error`: After a failure it has taken the first few.
-/

namespace Decompression

/-- What a writer made of the bytes it was offered. -/
inductive Attempt where
  /-- It took this many of them, from the front. -/
  | took (count : Nat)
  /-- It was interrupted and took none. -/
  | interrupted
  /-- It failed and took none. -/
  | failed (cause : IoError)
  deriving DecidableEq, Repr

/-- Something that takes bytes. -/
class Writer (ω : Type) where
  /-- Offers bytes. -/
  write : ω → List UInt8 → Attempt × ω
  /-- Everything taken so far. -/
  content : ω → List UInt8
  /-- How often the writer may still be interrupted. -/
  patience : ω → Nat
  /-- No more is taken than was offered. -/
  took_le {w w' : ω} {data : List UInt8} {count : Nat} :
    write w data = (.took count, w') → count ≤ data.length
  /-- What is taken comes after everything taken before. -/
  content_took {w w' : ω} {data : List UInt8} {count : Nat} :
    write w data = (.took count, w') → content w' = content w ++ data.take count
  /-- An interruption takes nothing. -/
  content_interrupted {w w' : ω} {data : List UInt8} :
    write w data = (.interrupted, w') → content w' = content w
  /-- An interruption uses up patience. -/
  patience_interrupted {w w' : ω} {data : List UInt8} :
    write w data = (.interrupted, w') → patience w' < patience w
  /-- A failure takes nothing. -/
  content_failed {w w' : ω} {data : List UInt8} {cause : IoError} :
    write w data = (.failed cause, w') → content w' = content w

namespace Writer

variable {ω : Type} [Writer ω]

/-- A writer that takes nothing, though it does not fail, takes no more. -/
def exhausted : IoError :=
  ⟨.writeZero, "failed to write whole buffer"⟩

/-- Offers what is left of some bytes until the writer has taken them all. -/
def writeAll (w : ω) (data : List UInt8) : Except IoError Unit × ω :=
  match data with
  | [] => (.ok (), w)
  | b :: bs =>
    match h : write w (b :: bs) with
    | (.took 0, w') => (.error exhausted, w')
    | (.took (n + 1), w') => writeAll w' ((b :: bs).drop (n + 1))
    | (.interrupted, w') => writeAll w' (b :: bs)
    | (.failed cause, w') => (.error cause, w')
termination_by (data.length, patience w)
decreasing_by
  · exact Prod.Lex.left _ _ (by simp only [List.length_drop, List.length_cons]; omega)
  · exact Prod.Lex.right _ (patience_interrupted h)

/-- After a success the writer has taken all bytes. -/
theorem content_writeAll_ok {w w' : ω} {data : List UInt8}
    (h : writeAll w data = (.ok (), w')) : content w' = content w ++ data := by
  fun_induction writeAll w data with
  | case1 w => cases h; exact (List.append_nil _).symm
  | case2 w b bs w₁ hw => cases h
  | case3 w b bs n w₁ hw ih =>
    rw [ih h, content_took hw, List.append_assoc, List.take_append_drop]
  | case4 w b bs w₁ hw ih => rw [ih h, content_interrupted hw]
  | case5 w b bs cause w₁ hw => cases h

/-- After a failure the writer has taken the first few bytes, and not all of them. -/
theorem content_writeAll_error {w w' : ω} {data : List UInt8} {cause : IoError}
    (h : writeAll w data = (.error cause, w')) :
    ∃ taken left, data = taken ++ left ∧ left ≠ [] ∧ content w' = content w ++ taken := by
  fun_induction writeAll w data with
  | case1 w => cases h
  | case2 w b bs w₁ hw =>
    cases h
    refine ⟨[], b :: bs, rfl, List.cons_ne_nil b bs, ?_⟩
    rw [content_took hw, List.take_zero]
  | case3 w b bs n w₁ hw ih =>
    obtain ⟨taken, left, hdata, hleft, hcontent⟩ := ih h
    refine ⟨(b :: bs).take (n + 1) ++ taken, left, ?_, hleft, ?_⟩
    · rw [List.append_assoc, ← hdata, List.take_append_drop]
    · rw [hcontent, content_took hw, List.append_assoc]
  | case4 w b bs w₁ hw ih =>
    obtain ⟨taken, left, hdata, hleft, hcontent⟩ := ih h
    exact ⟨taken, left, hdata, hleft, by rw [hcontent, content_interrupted hw]⟩
  | case5 w b bs cause w₁ hw =>
    cases h
    exact ⟨[], b :: bs, rfl, List.cons_ne_nil b bs, by rw [content_failed hw, List.append_nil]⟩

end Writer

/-- A writer that takes chunks, in order and without gaps. -/
structure WriterSink (ω : Type) where
  /-- Where the bytes go. -/
  writer : ω
  /-- How many bytes have been written, which is where the next chunk has to start. -/
  written : Nat

namespace WriterSink

variable {ω : Type}

/-- A sink that expects the stream from its beginning. -/
def ofWriter (writer : ω) : WriterSink ω :=
  ⟨writer, 0⟩

/-- A chunk that does not start where the one before it ended. -/
def outOfPlace (offset expected : Nat) : IoError :=
  ⟨.invalidData, "chunk at offset " ++ toString offset ++ " does not follow offset " ++
    toString expected⟩

/-- Writes a chunk, if it starts where the one before it ended. What has been
    written is only counted once the writer has taken the whole chunk. -/
def push [Writer ω] (sink : WriterSink ω) (chunk : Chunk) : Except IoError Unit × WriterSink ω :=
  if chunk.offset ≠ sink.written then
    (.error (outOfPlace chunk.offset sink.written), sink)
  else
    match Writer.writeAll sink.writer chunk.data with
    | (.ok (), writer) => (.ok (), ⟨writer, chunk.endOffset⟩)
    | (.error cause, writer) => (.error cause, { sink with writer := writer })

instance [Writer ω] : Sink (WriterSink ω) where
  push := push

end WriterSink

end Decompression
