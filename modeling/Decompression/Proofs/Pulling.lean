import Decompression.Decoder.Reader
import Decompression.Proofs.Drive

/-!
# Reading as a Loop of Pushes

What decoding from a reader does in one round, by what the reader comes to.

## Main definitions

* `ReadItem.interrupts`: The reader is only interrupted.
* `Decoder.takePush`: What a reader's round makes of the answer of a push.
* `Decoder.Pulled`: What a reader's round comes to.

## Theorems

* `Decoder.readRound_of_fail`, `Decoder.readRound_of_end`, `Decoder.readRound_of_data`: A
  round, by what the reader comes to.
* `Decoder.stable_readRound`: More rounds do not change what a round comes to.
* `Decoder.pulled_of_readRound`: Every round comes to something listed.
-/

namespace Decompression

/-- Being interrupted is a failure that means nothing. -/
def ReadItem.interrupts : ReadItem → Bool
  | .data _ => false
  | .fail cause => decide (cause.kind = .interrupted)

section Filling

variable {r r' : Reader}

theorem fill_error {cause : IoError} (h : r.fill = (.error cause, r')) :
    r.items = .fail cause :: r'.items := by
  unfold Reader.fill at h
  rcases hitems : r.items with _ | ⟨bytes | failure, rest⟩
  · rw [hitems] at h; cases h
  · rw [hitems] at h; cases h
  · rw [hitems] at h; cases h; rfl

-- What is shown is still there.
theorem fill_ok {buffer : List UInt8} (h : r.fill = (.ok buffer, r')) : r' = r := by
  unfold Reader.fill at h
  rcases hitems : r.items with _ | ⟨bytes | failure, rest⟩
  · rw [hitems] at h; cases h; rfl
  · rw [hitems] at h; cases h; rfl
  · rw [hitems] at h; cases h

theorem fill_data {buffer : List UInt8} (h : r.fill = (.ok buffer, r')) (hmore : buffer ≠ []) :
    ∃ rest, r.items = .data buffer :: rest := by
  unfold Reader.fill at h
  rcases hitems : r.items with _ | ⟨bytes | failure, rest⟩
  · rw [hitems] at h; cases h; exact absurd rfl hmore
  · rw [hitems] at h; cases h; exact ⟨rest, rfl⟩
  · rw [hitems] at h; cases h

end Filling

namespace Decoder

open Loop

variable {S M : Type} {c : Codec S M} {σ : Type} [Sink σ]

/-- What a round of decoding from a reader makes of the answer of a push. -/
def takePush (reader : Reader) (events : List Event) : Turn c Cursor σ Bool → ReadRound c σ
  | ⟨⟨d, _, sink⟩, .error error⟩ => .done events ⟨⟨d, reader, sink⟩, .error error⟩
  | ⟨⟨d, input, sink⟩, .ok ended⟩ =>
    if ended && !d.multipleMembers then
      .done events ⟨⟨d, reader.consume input.index, sink⟩, .ok ()⟩
    else .again events ⟨d, reader.consume input.index, sink⟩

theorem readBuffer_eq (fuel : Nat) (d : Decoder c) (reader : Reader) (buffer : List UInt8)
    (sink : σ) :
    readBuffer fuel d reader buffer sink =
      (d.push fuel buffer sink).map fun r => takePush reader r.events r.result := by
  unfold readBuffer
  rcases d.push fuel buffer sink with fault | ⟨events, ⟨⟨d', input, sink'⟩, error | ended⟩⟩
  · rfl
  · rfl
  · by_cases hlast : (ended && !d'.multipleMembers) = true
    · simp only [Except.map, takePush, if_pos hlast]
    · simp only [Except.map, takePush, if_neg hlast]

variable {fuel : Nat} {d : Decoder c} {reader reader' : Reader} {sink : σ}

theorem readRound_of_fail {cause : IoError} (h : reader.fill = (.error cause, reader')) :
    readRound fuel ⟨d, reader, sink⟩ =
      if cause.kind = .interrupted then .ok (.again [] ⟨d, reader', sink⟩)
      else .ok (endRead (d.fail (.input cause)) reader' sink) := by
  simp only [readRound, h]

theorem readRound_of_end (h : reader.fill = (.ok [], reader')) :
    readRound fuel ⟨d, reader, sink⟩ = .ok (endRead d.finish reader' sink) := by
  simp only [readRound, h]

theorem readRound_of_data {buffer : List UInt8} (h : reader.fill = (.ok buffer, reader'))
    (hmore : buffer ≠ []) :
    readRound fuel ⟨d, reader, sink⟩ =
      (d.push fuel buffer sink).map fun r => takePush reader' r.events r.result := by
  cases buffer with
  | nil => exact absurd rfl hmore
  | cons b bs =>
      rw [← readBuffer_eq]
      simp only [readRound, h]

theorem stable_readRound (w : Scene c Reader σ) : Stable fun fuel => readRound fuel w := by
  rcases w with ⟨d, reader, sink⟩
  rcases hfill : reader.fill with ⟨cause | buffer, reader'⟩
  · simp only [readRound_of_fail hfill]
    exact stable_const _
  · by_cases hmore : buffer = []
    · subst hmore
      simp only [readRound_of_end hfill]
      exact stable_const _
    · simp only [readRound_of_data hfill hmore]
      exact (stable_push ⟨d, .ofBytes buffer, sink⟩).map fun r => takePush reader' r.events r.result

/-- Everything that a round of decoding from a reader can come to. -/
inductive Pulled (fuel : Nat) : Scene c Reader σ → ReadRound c σ → Prop
  -- The reader was interrupted
  | interrupted {d : Decoder c} {reader later : Reader} {sink : σ} {cause : IoError}
      (fill : reader.fill = (.error cause, later)) (kind : cause.kind = .interrupted) :
      Pulled fuel ⟨d, reader, sink⟩ (.again [] ⟨d, later, sink⟩)
  -- The reader failed
  | failed {d : Decoder c} {reader later : Reader} {sink : σ} {cause : IoError}
      (fill : reader.fill = (.error cause, later)) (kind : cause.kind ≠ .interrupted) :
      Pulled fuel ⟨d, reader, sink⟩ (.done (.failed (.input cause) :: d.reset.events)
        ⟨⟨d.reset.decoder, later, sink⟩, .error (.input cause)⟩)
  -- The reader is at the end of its input
  | exhausted {d : Decoder c} {reader : Reader} {sink : σ} (fill : reader.fill = (.ok [], reader)) :
      Pulled fuel ⟨d, reader, sink⟩
        (.done d.finish.events ⟨⟨d.finish.decoder, reader, sink⟩, d.finish.result⟩)
  -- A buffer was pushed, and the push failed
  | broken {d : Decoder c} {reader : Reader} {sink : σ} {buffer : List UInt8}
      {q : Logged Event (Turn c Cursor σ Bool)} {error : DecodeError}
      (fill : reader.fill = (.ok buffer, reader)) (more : buffer ≠ [])
      (push : d.push fuel buffer sink = .ok q) (result : q.result.result = .error error) :
      Pulled fuel ⟨d, reader, sink⟩
        (.done q.events ⟨⟨q.result.decoder, reader, q.result.sink⟩, .error error⟩)
  -- A buffer was pushed, and nothing may come after the stream
  | ended {d : Decoder c} {reader : Reader} {sink : σ} {buffer : List UInt8}
      {q : Logged Event (Turn c Cursor σ Bool)}
      (fill : reader.fill = (.ok buffer, reader)) (more : buffer ≠ [])
      (push : d.push fuel buffer sink = .ok q) (result : q.result.result = .ok true)
      (single : q.result.decoder.multipleMembers = false) :
      Pulled fuel ⟨d, reader, sink⟩ (.done q.events
        ⟨⟨q.result.decoder, reader.consume q.result.input.index, q.result.sink⟩, .ok ()⟩)
  -- A buffer was pushed, and the next one may follow
  | onward {d : Decoder c} {reader : Reader} {sink : σ} {buffer : List UInt8} {ended : Bool}
      {q : Logged Event (Turn c Cursor σ Bool)}
      (fill : reader.fill = (.ok buffer, reader)) (more : buffer ≠ [])
      (push : d.push fuel buffer sink = .ok q) (result : q.result.result = .ok ended)
      (goes : ended = false ∨ q.result.decoder.multipleMembers = true) :
      Pulled fuel ⟨d, reader, sink⟩ (.again q.events
        ⟨q.result.decoder, reader.consume q.result.input.index, q.result.sink⟩)

/-- Every round of decoding from a reader comes to one of these. -/
theorem pulled_of_readRound {w : Scene c Reader σ} {r : ReadRound c σ}
    (h : readRound fuel w = .ok r) : Pulled fuel w r := by
  rcases w with ⟨d, reader, sink⟩
  rcases hfill : reader.fill with ⟨cause | buffer, reader'⟩
  · rw [readRound_of_fail hfill] at h
    by_cases hkind : cause.kind = .interrupted
    · rw [if_pos hkind] at h
      cases h
      exact .interrupted hfill hkind
    · rw [if_neg hkind] at h
      cases h
      exact .failed hfill hkind
  · have hshown : reader' = reader := fill_ok hfill
    subst hshown
    by_cases hmore : buffer = []
    · subst hmore
      rw [readRound_of_end hfill] at h
      cases h
      exact .exhausted hfill
    · rw [readRound_of_data hfill hmore] at h
      rcases map_eq_ok h with ⟨⟨events, ⟨⟨d', input, sink'⟩, error | ended⟩⟩, hpush, rfl⟩
      · exact .broken hfill hmore hpush rfl
      · by_cases hlast : (ended && !d'.multipleMembers) = true
        · simp only [takePush, if_pos hlast]
          simp only [Bool.and_eq_true, Bool.not_eq_true'] at hlast
          rcases hlast with ⟨rfl, hsingle⟩
          exact .ended hfill hmore hpush rfl hsingle
        · simp only [takePush, if_neg hlast]
          rw [Bool.not_eq_true, Bool.and_eq_false_iff, Bool.not_eq_false'] at hlast
          exact .onward hfill hmore hpush rfl hlast

end Decoder

end Decompression
