import Decompression.Proofs.Logging

/-!
# Pushes, a Step at a Time

A push does in one go what a caller who takes the chunks himself does in many small steps.
`Emits` tells the push as those steps: one rule for each way a step can end, the chunks in
the order in which they come, and the answer that the push gives when it returns. Both
directions hold, so whoever makes the steps gets what the push would have delivered.

A step fills the chunk that it answers with and no other one, whatever it goes through
before that. This is why a caller of steps has one buffer alive at a time.

## Main definitions

* `Emits`: A push, a step at a time.
* `produced`: How many chunks were filled.

## Theorems

* `emits_of_push`, `settles_push_of_emits`: A push is the steps it consists of.
* `produced_step`: A step fills the chunk that it answers with.
-/

namespace Decompression

open Decoder Loop

variable {S M : Type} {c : Codec S M}

/-! ## A push, a step at a time -/

section Steps

/-- A step for a caller and a step into an array, which has zeros to offer as well. -/
theorem next_alike (d : Decoder c) (fuel : Nat) (input : Cursor) (chunks : Array Chunk) :
    Agree 0 Logged.events
      (LoggedAlike 0 ((Likeness.refl c).TurnShifted (fun (_ : Unit) k => k = chunks)
        (Progress.shift 0) 0))
      (d.next fuel input) (step fuel Sink.alloc ⟨d, input, chunks⟩) := by
  have hserve : Likeness.ServesAlike (fun (_ : Unit) (k : Array Chunk) => k = chunks) 0
      zeroAllocator Sink.alloc := by
    rintro _ k rfl offset size
    exact ⟨rfl, rfl⟩
  have hscene : (Likeness.refl c).SceneShifted (fun (_ : Unit) k => k = chunks) 0
      (⟨d, input, ()⟩ : Scene c Cursor Unit) (⟨d, input, chunks⟩ : Scene c Cursor (Array Chunk)) :=
    ⟨Likeness.shifted_refl_iff.mpr rfl, rfl, rfl⟩
  exact Likeness.step_alike hserve fuel hscene

theorem stable_next (d : Decoder c) (input : Cursor) : Stable fun fuel => d.next fuel input :=
  stable_step zeroAllocator ⟨d, input, ()⟩

-- The two steps take the same number of rounds, so the bound of the one serves the other.
theorem next_of_step {d : Decoder c} {input : Cursor} {chunks : Array Chunk}
    {r : Logged Event (Turn c Cursor (Array Chunk) Progress)}
    (h : Settles (fun fuel => step fuel Sink.alloc ⟨d, input, chunks⟩) (.ok r)) :
    Settles (fun fuel => d.next fuel input)
        (.ok ⟨r.events, ⟨⟨r.result.decoder, r.result.input, ()⟩, r.result.result⟩⟩) ∧
      r.result.sink = chunks := by
  rcases h with ⟨_, enough, h⟩
  have hnext : ∀ fuel, enough ≤ fuel → d.next fuel input =
      .ok ⟨r.events, ⟨⟨r.result.decoder, r.result.input, ()⟩, r.result.result⟩⟩ ∧
        r.result.sink = chunks := by
    intro fuel hle
    have hagree := next_alike d fuel input chunks
    have hstep : step fuel Sink.alloc ⟨d, input, chunks⟩ = .ok r := h fuel hle
    rw [hstep] at hagree
    rcases hagree.ok_of_zero with ⟨⟨events, ⟨⟨d', input', _⟩, result⟩⟩, hr, halike⟩
    rcases halike.eq_of_refl Progress.shift_zero with ⟨hevents, hdecoder, hinput, hresult⟩
    dsimp only at hevents hdecoder hinput hresult
    subst hevents hdecoder hinput hresult
    exact ⟨hr, halike.result.sink⟩
  exact ⟨⟨ok_ne_outOfFuel _, enough,
    fun fuel hle => (hnext fuel hle).1⟩, (hnext enough (Nat.le_refl enough)).2⟩

theorem step_of_next {d : Decoder c} {input : Cursor} (chunks : Array Chunk)
    {r : Logged Event (Turn c Cursor Unit Progress)}
    (h : Settles (fun fuel => d.next fuel input) (.ok r)) :
    Settles (fun fuel => step fuel Sink.alloc ⟨d, input, chunks⟩)
      (.ok ⟨r.events, ⟨⟨r.result.decoder, r.result.input, chunks⟩, r.result.result⟩⟩) := by
  rcases h with ⟨_, enough, h⟩
  refine ⟨ok_ne_outOfFuel _, enough, fun fuel hle => ?_⟩
  have hagree := next_alike d fuel input chunks
  have hnext : d.next fuel input = .ok r := h fuel hle
  rw [hnext] at hagree
  rcases hagree.ok_of_ok with ⟨⟨events, ⟨⟨d', input', k⟩, result⟩⟩, hr, halike⟩
  rcases halike.eq_of_refl Progress.shift_zero with ⟨hevents, hdecoder, hinput, hresult⟩
  have hsink := halike.result.sink
  dsimp only at hevents hdecoder hinput hresult hsink
  rw [hsink] at hr
  rw [hevents, hdecoder, hinput, hresult]
  exact hr

/-- A push, a step at a time: the chunks, the answer, and the decoder afterwards. -/
inductive Emits : Decoder c → Cursor → List Chunk → Except DecodeError Bool → Decoder c → Prop
  -- The step failed, and the decoder starts over
  | failed {d d' : Decoder c} {input input' : Cursor} {events : List Event} {error : DecodeError}
      (h : Settles (fun fuel => d.next fuel input)
        (.ok ⟨events, ⟨⟨d', input', ()⟩, .error error⟩⟩)) : Emits d input [] (.error error) d'
  -- All input was read
  | starved {d d' : Decoder c} {input input' : Cursor} {events : List Event}
      (h : Settles (fun fuel => d.next fuel input)
        (.ok ⟨events, ⟨⟨d', input', ()⟩, .ok .needInput⟩⟩)) : Emits d input [] (.ok false) d'
  -- The stream is over, and its last chunk has come before
  | ended {d d' : Decoder c} {input input' : Cursor} {events : List Event}
      (h : Settles (fun fuel => d.next fuel input)
        (.ok ⟨events, ⟨⟨d', input', ()⟩, .ok (.ended none)⟩⟩)) : Emits d input [] (.ok true) d'
  -- The stream is over with this chunk
  | last {d d' : Decoder c} {input input' : Cursor} {events : List Event} {chunk : Chunk}
      (h : Settles (fun fuel => d.next fuel input)
        (.ok ⟨events, ⟨⟨d', input', ()⟩, .ok (.ended (some chunk))⟩⟩)) :
      Emits d input [chunk] (.ok true) d'
  -- A chunk was filled, and there may be more
  | chunk {d d' d'' : Decoder c} {input input' : Cursor} {events : List Event} {chunk : Chunk}
      {later : List Chunk} {result : Except DecodeError Bool}
      (h : Settles (fun fuel => d.next fuel input)
        (.ok ⟨events, ⟨⟨d', input', ()⟩, .ok (.chunk chunk)⟩⟩))
      (rest : Emits d' input' later result d'') : Emits d input (chunk :: later) result d''

-- A round of a push into an array, by the step it consists of.
theorem next_of_pushRound {d : Decoder c} {input : Cursor} {chunks : Array Chunk}
    {r : PushRound c (Array Chunk)}
    (h : Settles (fun fuel => pushRound fuel ⟨d, input, chunks⟩) (.ok r)) :
    ∃ events d' input' result, Settles (fun fuel => d.next fuel input)
        (.ok ⟨events, ⟨⟨d', input', ()⟩, result⟩⟩) ∧
      r = takeProgress events ⟨⟨d', input', chunks⟩, result⟩ := by
  simp only [pushRound_eq] at h
  rcases (settles_map_iff (stable_step Sink.alloc _)).mp h with ⟨a, ha, hmap⟩
  rcases map_eq_ok hmap with ⟨⟨events, ⟨⟨d', input', k⟩, result⟩⟩, rfl, rfl⟩
  rcases next_of_step ha with ⟨hnext, hsink⟩
  dsimp only at hsink
  subst hsink
  exact ⟨events, d', input', result, hnext, rfl⟩

theorem pushRound_of_next {d d' : Decoder c} {input input' : Cursor} (chunks : Array Chunk)
    {events : List Event} {result : Except DecodeError Progress}
    (h : Settles (fun fuel => d.next fuel input) (.ok ⟨events, ⟨⟨d', input', ()⟩, result⟩⟩)) :
    Settles (fun fuel => pushRound fuel ⟨d, input, chunks⟩)
      (.ok (takeProgress events ⟨⟨d', input', chunks⟩, result⟩)) := by
  simp only [pushRound_eq]
  exact (settles_map_iff (stable_step Sink.alloc _)).mpr ⟨_, step_of_next chunks h, rfl⟩

/-- A push into an array is the steps it consists of. -/
theorem emits_of_ends {w : Scene c Cursor (Array Chunk)}
    {r : Logged Event (Turn c Cursor (Array Chunk) Bool)} (h : Ends pushRound w (.ok r)) :
    ∃ chunks, Emits w.decoder w.input chunks r.result.result r.result.decoder ∧
      r.result.sink.toList = w.sink.toList ++ chunks := by
  induction h using Ends.ok_induction with
  | @done w events turn hs =>
      rcases w with ⟨d, input, chunks⟩
      rcases next_of_pushRound hs with ⟨events', d', input', error | chunk | last | _,
        hnext, hround⟩
      · cases hround
        exact ⟨[], .failed hnext, (List.append_nil _).symm⟩
      · cases hround
      · cases last with
        | none =>
            cases hround
            exact ⟨[], .ended hnext, (List.append_nil _).symm⟩
        | some chunk =>
            cases hround
            exact ⟨[chunk], .last hnext, Array.toList_push⟩
      · cases hround
        exact ⟨[], .starved hnext, (List.append_nil _).symm⟩
  | @again w next events r hs _ ih =>
      rcases w with ⟨d, input, chunks⟩
      rcases next_of_pushRound hs with ⟨events', d', input', error | chunk | last | _,
        hnext, hround⟩
      · cases hround
      · cases hround
        rcases ih with ⟨later, hemits, hsink⟩
        refine ⟨chunk :: later, .chunk hnext hemits, ?_⟩
        dsimp only at hsink ⊢
        rw [hsink, Array.toList_push, List.append_assoc]
        rfl
      · cases last with
        | none => cases hround
        | some chunk => cases hround
      · cases hround

theorem emits_of_push {d : Decoder c} {fuel : Nat} {bytes : List UInt8} {chunks : Array Chunk}
    {r : Logged Event (Turn c Cursor (Array Chunk) Bool)} (h : d.push fuel bytes chunks = .ok r) :
    ∃ later, Emits d (.ofBytes bytes) later r.result.result r.result.decoder ∧
      r.result.sink.toList = chunks.toList ++ later :=
  emits_of_ends (w := ⟨d, .ofBytes bytes, chunks⟩)
    (ends_of_run stable_pushRound fuel h (ok_ne_outOfFuel _))

-- The steps of a push, put together again. The array is what the steps before have left.
theorem ends_of_emits {d d' : Decoder c} {input : Cursor} {later : List Chunk}
    {result : Except DecodeError Bool} (h : Emits d input later result d') :
    ∀ chunks : Array Chunk, ∃ events input' chunks', Ends pushRound ⟨d, input, chunks⟩
        (.ok ⟨events, ⟨⟨d', input', chunks'⟩, result⟩⟩) ∧ chunks'.toList =
          chunks.toList ++ later := by
  induction h with
  | failed hnext =>
      intro chunks
      exact ⟨_, _, chunks, .done (pushRound_of_next chunks hnext), (List.append_nil _).symm⟩
  | starved hnext =>
      intro chunks
      exact ⟨_, _, chunks, .done (pushRound_of_next chunks hnext), (List.append_nil _).symm⟩
  | ended hnext =>
      intro chunks
      exact ⟨_, _, chunks, .done (pushRound_of_next chunks hnext), (List.append_nil _).symm⟩
  | @last _ _ _ _ _ chunk hnext =>
      intro chunks
      exact ⟨_, _, chunks.push chunk, .done (pushRound_of_next chunks hnext), Array.toList_push⟩
  | @chunk _ _ _ _ _ _ chunk later _ hnext _ ih =>
      intro chunks
      rcases ih (chunks.push chunk) with ⟨events, input', chunks', hends, hsink⟩
      refine ⟨_, input', chunks', .again (pushRound_of_next chunks hnext) hends, ?_⟩
      rw [hsink, Array.toList_push, List.append_assoc]
      rfl

theorem settles_push_of_emits {d d' : Decoder c} {bytes : List UInt8} {later : List Chunk}
    {result : Except DecodeError Bool} (h : Emits d (.ofBytes bytes) later result d') :
    ∃ events input' chunks', Settles (fun fuel => d.push fuel bytes (#[] : Array Chunk))
        (.ok ⟨events, ⟨⟨d', input', chunks'⟩, result⟩⟩) ∧ chunks'.toList = later := by
  rcases ends_of_emits h #[] with ⟨events, input', chunks', hends, hsink⟩
  exact ⟨events, input', chunks', (settles_run_iff stable_pushRound).mpr hends, hsink⟩

end Steps

/-! ## How many chunks a step produces -/

section Counting

/-- The event says that a chunk was filled. -/
def Event.isChunk : Event → Bool
  | .chunkProduced _ _ => true
  | _ => false

/-- How many chunks were filled. -/
def produced (events : List Event) : Nat :=
  events.countP Event.isChunk

theorem produced_eq (events : List Event) : produced events = (spans events).length := by
  have hchunk : Event.isChunk = fun event => event.span?.isSome := by
    funext event
    cases event <;> rfl
  rw [produced, spans, List.length_filterMap_eq_countP, hchunk]

theorem produced_append (as bs : List Event) : produced (as ++ bs) = produced as + produced bs :=
  List.countP_append

theorem produced_finish (d : Decoder c) : produced d.finish.events = 0 := by
  rw [produced_eq, spans_finish]
  rfl

variable {σ : Type} {alloc : Allocator σ}

/-- A step fills the chunk that it answers with, and no other. -/
theorem produced_step {fuel : Nat} {w : Scene c Cursor σ}
    {r : Logged Event (Turn c Cursor σ Progress)} (h : step fuel alloc w = .ok r) :
    produced r.events = (answeredChunks r.result.result).length := by
  rw [produced_eq, spans_step h, List.length_map]

theorem produced_next {d d' : Decoder c} {input input' : Cursor} {events : List Event}
    {result : Except DecodeError Progress}
    (h : Settles (fun fuel => d.next fuel input) (.ok ⟨events, ⟨⟨d', input', ()⟩, result⟩⟩)) :
    produced events = (answeredChunks result).length := by
  rcases h.exists_fuel with ⟨fuel, hfuel⟩
  exact produced_step hfuel

end Counting

end Decompression
