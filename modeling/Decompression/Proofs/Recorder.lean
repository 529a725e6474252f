import Decompression.Proofs.Drive

/-!
# Recording Sinks

A sink that passes every call on to another one and keeps a record of it. What a
decoder hands out is what its sink is called with, and a record makes that visible for
every sink, also for one that keeps nothing of the chunks it takes, or refuses them.

A sink is accepting if it provides every buffer that is asked for and takes every
chunk. What its buffers hold before they are written to is its own affair.

## Main definitions

* `SinkCall`: A call on a sink, with the answer.
* `Recorder`: A sink with the record of the calls on it.
* `Recorder.handed`, `Recorder.bytes`: The chunks it was handed, and their data.
* `Accepting`: A sink that never fails.

## Theorems

* `Recorder.handed_push`, `Recorder.bytes_push`: A push adds its chunk to the record.
* `handed_step`: A step asks for buffers, and hands nothing over.
* `Recorder.accepting`: Recording does not make a sink fail.
-/

namespace Decompression

/-- A call on a sink, with the answer it was given. -/
inductive SinkCall where
  | alloc (offset size : Nat) (answer : Except IoError (List UInt8))
  | push (chunk : Chunk) (answer : Except IoError Unit)

/-- The chunk that a call handed over. -/
def SinkCall.chunk? : SinkCall → Option Chunk
  | .alloc _ _ _ => none
  | .push chunk _ => some chunk

/-- A sink and the calls on it, the latest last. -/
structure Recorder (σ : Type) where
  inner : σ
  calls : List SinkCall

namespace Recorder

variable {σ : Type} [Sink σ]

/-- A sink of which nothing has been recorded. -/
def ofSink (sink : σ) : Recorder σ :=
  ⟨sink, []⟩

instance : Sink (Recorder σ) where
  alloc r offset size :=
    let served := Sink.alloc r.inner offset size
    (served.1, ⟨served.2, r.calls ++ [.alloc offset size served.1]⟩)
  push r chunk :=
    let taken := Sink.push r.inner chunk
    (taken.1, ⟨taken.2, r.calls ++ [.push chunk taken.1]⟩)

/-- The chunks handed over, in order, taken or not. -/
def handed (r : Recorder σ) : List Chunk :=
  r.calls.filterMap SinkCall.chunk?

/-- The data of the chunks handed over, in order. -/
def bytes (r : Recorder σ) : List UInt8 :=
  r.handed.flatMap Chunk.data

theorem alloc_eq (r : Recorder σ) (offset size : Nat) :
    Sink.alloc r offset size = ((Sink.alloc r.inner offset size).1,
      ⟨(Sink.alloc r.inner offset size).2,
        r.calls ++ [.alloc offset size (Sink.alloc r.inner offset size).1]⟩) :=
  rfl

theorem push_eq (r : Recorder σ) (chunk : Chunk) :
    Sink.push r chunk = ((Sink.push r.inner chunk).1,
      ⟨(Sink.push r.inner chunk).2, r.calls ++ [.push chunk (Sink.push r.inner chunk).1]⟩) :=
  rfl

theorem calls_alloc {r served : Recorder σ} {offset size : Nat}
    {answer : Except IoError (List UInt8)} (h : Sink.alloc r offset size = (answer, served)) :
    served.calls = r.calls ++ [.alloc offset size answer] := by
  rw [alloc_eq] at h
  cases h
  rfl

theorem calls_push {r taken : Recorder σ} {chunk : Chunk} {answer : Except IoError Unit}
    (h : Sink.push r chunk = (answer, taken)) : taken.calls = r.calls ++ [.push chunk answer] := by
  rw [push_eq] at h
  cases h
  rfl

theorem handed_alloc {r served : Recorder σ} {offset size : Nat}
    {answer : Except IoError (List UInt8)} (h : Sink.alloc r offset size = (answer, served)) :
    served.handed = r.handed := by
  simp only [handed, calls_alloc h, List.filterMap_append, List.filterMap_cons, SinkCall.chunk?,
    List.filterMap_nil, List.append_nil]

theorem handed_push {r taken : Recorder σ} {chunk : Chunk} {answer : Except IoError Unit}
    (h : Sink.push r chunk = (answer, taken)) : taken.handed = r.handed ++ [chunk] := by
  simp only [handed, calls_push h, List.filterMap_append, List.filterMap_cons, SinkCall.chunk?,
    List.filterMap_nil]

theorem bytes_alloc {r served : Recorder σ} {offset size : Nat}
    {answer : Except IoError (List UInt8)} (h : Sink.alloc r offset size = (answer, served)) :
    served.bytes = r.bytes := by
  rw [bytes, handed_alloc h, bytes]

theorem bytes_push {r taken : Recorder σ} {chunk : Chunk} {answer : Except IoError Unit}
    (h : Sink.push r chunk = (answer, taken)) : taken.bytes = r.bytes ++ chunk.data := by
  rw [bytes, handed_push h, List.flatMap_append, List.flatMap_singleton, bytes]

end Recorder

section Steps

variable {S M σ : Type} {c : Codec S M} [Sink σ] {w : Scene c Cursor (Recorder σ)}

open Decoder Loop

-- Asking for a buffer hands nothing over.
theorem handed_attempt (hready : w.decoder.session ≠ none)
    {r : Round Event (Scene c Cursor (Recorder σ)) (Turn c Cursor (Recorder σ) Progress)}
    (h : attempt Sink.alloc w = .ok r) :
    (match r with
      | .again _ next => next.sink
      | .done _ turn => turn.sink).handed = w.sink.handed := by
  have hcases := attempted_of_eq hready h
  cases hcases with
  | spent _ _ => rfl
  | refused _ _ _ _ => rfl
  | @unserved events entered cause served _ hserve =>
      have hserved : served =
          (Sink.alloc w.sink entered.outputOffset entered.bufferSize.toNat).2 := by
        rw [← request_sink, hserve]
      rw [hserved]
      exact Recorder.handed_alloc rfl
  | failed hran _ _ => exact Recorder.handed_alloc hran.serve
  | starved hran _ _ _ _ => exact Recorder.handed_alloc hran.serve
  | passed hran _ _ _ _ _ => exact Recorder.handed_alloc hran.serve
  | closed hran _ _ _ _ _ => exact Recorder.handed_alloc hran.serve
  | filled hran _ _ _ _ _ _ => exact Recorder.handed_alloc hran.serve

/-- A step asks for buffers, and hands nothing over. -/
theorem handed_step {fuel : Nat} {r : Logged Event (Turn c Cursor (Recorder σ) Progress)}
    (h : step fuel Sink.alloc w = .ok r) : r.result.sink.handed = w.sink.handed := by
  by_cases hready : w.decoder.session = none
  · rw [step_of_not_ready hready] at h
    cases h
    rfl
  have hends := ends_of_step hready h
  clear h
  induction hends using Ends.ok_induction with
  | done hs => exact handed_attempt hready hs.of_const
  | again hs _ ih =>
      have hround := hs.of_const
      exact (ih (attempt_ready hready hround)).trans (handed_attempt hready hround)

end Steps

/-- The sink provides every buffer that is asked for, and takes every chunk. -/
structure Accepting (σ : Type) [Sink σ] : Prop where
  alloc : ∀ (sink : σ) (offset size : Nat), ∃ buffer served,
    Sink.alloc sink offset size = (.ok buffer, served) ∧ buffer.length = size
  push : ∀ (sink : σ) (chunk : Chunk), ∃ taken, Sink.push sink chunk = (.ok (), taken)

theorem accepting_array : Accepting (Array Chunk) where
  alloc sink _ size := ⟨Sink.zeroed size, sink, rfl, List.length_replicate⟩
  push sink chunk := ⟨sink.push chunk, rfl⟩

/-- Recording does not make a sink fail. -/
theorem Recorder.accepting {σ : Type} [Sink σ] (h : Accepting σ) : Accepting (Recorder σ) where
  alloc r offset size := by
    rcases h.alloc r.inner offset size with ⟨buffer, served, halloc, hsize⟩
    refine ⟨buffer, (Sink.alloc r offset size).2, ?_, hsize⟩
    rw [alloc_eq, halloc]
  push r chunk := by
    rcases h.push r.inner chunk with ⟨taken, hpush⟩
    refine ⟨(Sink.push r chunk).2, ?_⟩
    rw [push_eq, hpush]

end Decompression
