import Decompression.Proofs.Pulling

/-!
# Two Decoders in Step

Two decoders whose sessions correspond, and which are asked for the same, do the same. One
of them may even have come further than the other: as long as nothing but its offsets
tells, every offset it reports is larger by what it is ahead, and everything else is equal.
When both are reset they are on a par again.

The two need not be of one kind. A `Likeness` relates the sessions of two codecs, so it may
be that one of them only keeps a record of what the other does; and the relation between
the two sinks is a parameter, so it may be that one decoder hands out its chunks and the
other gives them to a sink.

Being ahead has one consequence that is not a mere shift. Offsets are 64-bit numbers, and
the decoder that is ahead runs out of them first. `Agree` therefore allows it to fault
there, provided that the other one, if it returns at all, has noted a chunk that lies out
of range for the first.

## Main definitions

* `Event.shift`, `Chunk.shift`, `Progress.shift`, `DecodeError.shift`: Larger offsets.
* `Likeness`: Sessions that correspond.
* `Likeness.Shifted`: Decoders that differ in their offsets.
* `Agree`: Calls that come to the same, unless one runs out of offsets.

## Theorems

* `run_alike`: Loops whose rounds agree.
* `attempt_alike`, `step_alike`, `push_alike`, `readAll_alike`: Calls on shifted decoders.
-/

namespace Decompression

open Decoder Loop

/-! ## Larger offsets -/

/-- The chunk, further on. -/
def Chunk.shift (o : Nat) (chunk : Chunk) : Chunk :=
  { chunk with offset := chunk.offset + o }

def DecodeError.shift (o : Nat) : DecodeError → DecodeError
  | .truncated offset => .truncated (offset + o)
  | error => error

def Event.shift (o : Nat) : Event → Event
  | .sessionStarted => .sessionStarted
  | .startFailed error => .startFailed (error.shift o)
  | .sessionEnded offset => .sessionEnded (offset + o)
  | .notReady => .notReady
  | .failed error => .failed (error.shift o)
  | .nextMember offset => .nextMember (offset + o)
  | .chunkProduced offset length => .chunkProduced (offset + o) length
  | .streamEnded offset => .streamEnded (offset + o)
  | .chunkRejected offset cause => .chunkRejected (offset + o) cause

def Progress.shift (o : Nat) : Progress → Progress
  | .chunk span => .chunk (span.shift o)
  | .ended last => .ended (last.map (Chunk.shift o))
  | .needInput => .needInput

/-- What is reported, by a decoder that is ahead. -/
def shiftResult {α : Type} (f : α → α) (o : Nat) : Except DecodeError α → Except DecodeError α
  | .ok a => .ok (f a)
  | .error error => .error (error.shift o)

/-- The decoder has started over when it reports this error. -/
def DecodeError.startsOver : DecodeError → Bool
  | .start _ | .notReady => false
  | .decode _ _ | .alloc _ | .sink _ | .input _ | .truncated _ => true

/-- The decoder has started over when it reports this result. -/
def startedOver {α : Type} : Except DecodeError α → Bool
  | .ok _ => false
  | .error error => error.startsOver

/-- How far a decoder is still ahead after it has reported a result. -/
def shiftAfter {α : Type} (o : Nat) (result : Except DecodeError α) : Nat :=
  if startedOver result then 0 else o

theorem Progress.shift_ofChunk (o : Nat) (last : Bool) (chunk : Chunk) :
    (Progress.ofChunk last chunk).shift o = .ofChunk last (chunk.shift o) := by
  cases last <;> rfl

theorem Event.shift_ofChunk (o : Nat) (last : Bool) (chunk : Chunk) :
    (Event.ofChunk last chunk).map (Event.shift o) = Event.ofChunk last (chunk.shift o) := by
  cases last with
  | false => rfl
  | true =>
      have hend : (chunk.shift o).endOffset = chunk.endOffset + o :=
        Nat.add_right_comm chunk.offset o chunk.length
      simp only [Event.ofChunk, if_true, List.map_cons, List.map_nil, Event.shift, hend]
      rfl

section Zero

theorem DecodeError.shift_zero (error : DecodeError) : error.shift 0 = error := by
  cases error <;> rfl

theorem Event.shift_zero (event : Event) : event.shift 0 = event := by
  cases event with
  | startFailed error => exact congrArg Event.startFailed error.shift_zero
  | failed error => exact congrArg Event.failed error.shift_zero
  | _ => rfl

theorem map_shift_zero (events : List Event) : events.map (Event.shift 0) = events := by
  have hid : Event.shift 0 = id := funext Event.shift_zero
  rw [hid, List.map_id]

theorem Progress.shift_zero (progress : Progress) : progress.shift 0 = progress := by
  rcases progress with chunk | last | _
  · rfl
  · cases last <;> rfl
  · rfl

theorem shiftResult_zero {α : Type} {f : α → α} (hf : ∀ a, f a = a)
    (result : Except DecodeError α) : shiftResult f 0 result = result := by
  cases result with
  | error error => exact congrArg Except.error error.shift_zero
  | ok a => exact congrArg Except.ok (hf a)

theorem shiftAfter_zero {α : Type} (result : Except DecodeError α) : shiftAfter 0 result = 0 := by
  unfold shiftAfter
  by_cases h : startedOver result = true
  · rw [if_pos h]
  · rw [if_neg h]

end Zero

-- Starting over is noted without offsets.
theorem reset_events_shift {S M : Type} {c : Codec S M} (o : Nat) (d : Decoder c) :
    d.reset.events.map (Event.shift o) = d.reset.events := by
  rcases reset_cases d with ⟨s, memory, _, hreset⟩ | ⟨cause, memory, _, hreset⟩
  · rw [hreset]
    rfl
  · rw [hreset]
    rfl

/-! ## Calls that agree -/

section Agreement

variable {α β : Type}

/-- Two calls come to related results, or both to none; but a call that is ahead by `o` may
    run out of offsets where the other one notes a chunk. -/
inductive Agree (o : Nat) (noted : β → List Event) (rel : α → β → Prop) :
    Except Fault α → Except Fault β → Prop
  | ok {a : α} {b : β} (h : rel a b) : Agree o noted rel (.ok a) (.ok b)
  | fault {f₁ f₂ : Fault} (h : f₁ = .outOfFuel ↔ f₂ = .outOfFuel) :
      Agree o noted rel (.error f₁) (.error f₂)
  | overflow {r : Except Fault β} (h : ∀ b, r = .ok b → ∃ offset length,
      Event.chunkProduced offset length ∈ noted b ∧ offset + length < offsetLimit ∧
        offsetLimit ≤ offset + o + length) : Agree o noted rel (.error .offsetOverflow) r

-- A decoder that is not ahead does not run out of offsets.
theorem Agree.ok_of_zero {noted : β → List Event} {rel : α → β → Prop} {r₁ : Except Fault α}
    {b : β} (h : Agree 0 noted rel r₁ (.ok b)) : ∃ a, r₁ = .ok a ∧ rel a b := by
  cases h with
  | @ok a _ hrel => exact ⟨a, rfl, hrel⟩
  | overflow hnoted =>
      rcases hnoted b rfl with ⟨offset, length, _, hin, hout⟩
      exact absurd hin (Nat.not_lt.mpr hout)

theorem Agree.ok_of_ok {o : Nat} {noted : β → List Event} {rel : α → β → Prop}
    {r₂ : Except Fault β} {a : α} (h : Agree o noted rel (.ok a) r₂) :
    ∃ b, r₂ = .ok b ∧ rel a b := by
  cases h with
  | @ok _ b hrel => exact ⟨b, rfl, hrel⟩

-- Making something of the results keeps the agreement, if it notes no less.
theorem Agree.map {α' β' : Type} {o : Nat} {noted : β → List Event} {noted' : β' → List Event}
    {rel : α → β → Prop} {rel' : α' → β' → Prop} {f : α → α'} {g : β → β'}
    (hrel : ∀ a b, rel a b → rel' (f a) (g b)) (hnoted : ∀ b, noted b ⊆ noted' (g b))
    {r₁ : Except Fault α} {r₂ : Except Fault β} (h : Agree o noted rel r₁ r₂) :
    Agree o noted' rel' (r₁.map f) (r₂.map g) := by
  cases h with
  | ok h => exact .ok (hrel _ _ h)
  | fault h => exact .fault h
  | overflow h =>
      refine .overflow fun b hb => ?_
      cases r₂ with
      | error fault => cases hb
      | ok b' =>
          cases hb
          rcases h b' rfl with ⟨offset, length, hmem, hrange⟩
          exact ⟨offset, length, hnoted b' hmem, hrange⟩

theorem Agree.map_left {α' : Type} {o : Nat} {noted : β → List Event} {rel : α → β → Prop}
    {rel' : α' → β → Prop} {f : α → α'} (hrel : ∀ a b, rel a b → rel' (f a) b) {r₁ : Except Fault α}
    {r₂ : Except Fault β} (h : Agree o noted rel r₁ r₂) : Agree o noted rel' (r₁.map f) r₂ := by
  cases h with
  | ok h => exact .ok (hrel _ _ h)
  | fault h => exact .fault h
  | overflow h => exact .overflow h

theorem Agree.bind {α' β' : Type} {o : Nat} {noted : β → List Event} {noted' : β' → List Event}
    {rel : α → β → Prop} {rel' : α' → β' → Prop} {f : α → Except Fault α'} {g : β → Except Fault β'}
    (hrel : ∀ a b, rel a b → Agree o noted' rel' (f a) (g b))
    (hnoted : ∀ b b', g b = .ok b' → noted b ⊆ noted' b') {r₁ : Except Fault α}
    {r₂ : Except Fault β}
    (h : Agree o noted rel r₁ r₂) : Agree o noted' rel' (r₁.bind f) (r₂.bind g) := by
  cases h with
  | ok h => exact hrel _ _ h
  | fault h => exact .fault h
  | overflow h =>
      refine .overflow fun b' hb' => ?_
      rcases bind_eq_ok hb' with ⟨b, hb, hg⟩
      rcases h b hb with ⟨offset, length, hmem, hrange⟩
      exact ⟨offset, length, hnoted b b' hg hmem, hrange⟩

end Agreement

section Loops

variable {s₁ s₂ β₁ β₂ : Type}

/-- What a round of a loop notes. -/
def roundEvents {s β : Type} : Round Event s β → List Event
  | .again events _ | .done events _ => events

/-- Two rounds that note the same, one ahead by `o`, and come to related states or results. -/
inductive RoundAlike (o : Nat) (A : s₁ → s₂ → Prop) (B : β₁ → β₂ → Prop) :
    Round Event s₁ β₁ → Round Event s₂ β₂ → Prop
  | again (events : List Event) {a : s₁} {b : s₂} (h : A a b) :
      RoundAlike o A B (.again (events.map (Event.shift o)) a) (.again events b)
  | done (events : List Event) {a : β₁} {b : β₂} (h : B a b) :
      RoundAlike o A B (.done (events.map (Event.shift o)) a) (.done events b)

/-- Two loops have noted the same, one ahead by `o`, and have come to related results. -/
structure LoggedAlike (o : Nat) (B : β₁ → β₂ → Prop) (r₁ : Logged Event β₁) (r₂ : Logged Event β₂) :
    Prop where
  events : r₁.events = r₂.events.map (Event.shift o)
  result : B r₁.result r₂.result

theorem Agree.preceded {o : Nat} {B : β₁ → β₂ → Prop} {r₁ : Except Fault (Logged Event β₁)}
    {r₂ : Except Fault (Logged Event β₂)} (events : List Event)
    (h : Agree o Logged.events (LoggedAlike o B) r₁ r₂) :
    Agree o Logged.events (LoggedAlike o B) (preceded (events.map (Event.shift o)) r₁)
      (preceded events r₂) := by
  rw [preceded_eq_map, preceded_eq_map]
  refine h.map (fun a b hab => LoggedAlike.mk ?_ hab.result)
    fun b => List.subset_append_right events b.events
  rw [hab.events, List.map_append]

-- What the first round notes is among what the loop notes.
theorem roundEvents_subset {s β : Type} {round : s → Except Fault (Round Event s β)} {a : s}
    {q : Round Event s β} (hround : round a = .ok q) {fuel : Nat} {r : Logged Event β}
    (h : run round (fuel + 1) a = .ok r) : roundEvents q ⊆ r.events := by
  cases q with
  | done events result =>
      rw [run_succ_done hround] at h
      cases h
      exact List.Subset.refl events
  | again events next =>
      rw [run_succ_again hround, preceded_eq_map] at h
      rcases map_eq_ok h with ⟨r', _, rfl⟩
      exact List.subset_append_left events r'.events

/-- Loops whose rounds agree come to the same in the same number of rounds. -/
theorem run_alike {o : Nat} {A : s₁ → s₂ → Prop} {B : β₁ → β₂ → Prop}
    {round₁ : s₁ → Except Fault (Round Event s₁ β₁)}
    {round₂ : s₂ → Except Fault (Round Event s₂ β₂)}
    (hround : ∀ a b, A a b → Agree o roundEvents (RoundAlike o A B) (round₁ a) (round₂ b)) :
    ∀ (fuel : Nat) {a : s₁} {b : s₂}, A a b →
      Agree o Logged.events (LoggedAlike o B) (run round₁ fuel a) (run round₂ fuel b) := by
  intro fuel
  induction fuel with
  | zero => exact fun _ => .fault Iff.rfl
  | succ fuel ih =>
      intro a b hab
      have h := hround a b hab
      generalize hr₁ : round₁ a = r₁ at h
      generalize hr₂ : round₂ b = r₂ at h
      cases h with
      | fault hfuel =>
          rw [run_succ_error hr₁, run_succ_error hr₂]
          exact .fault hfuel
      | ok hrounds =>
          cases hrounds with
          | again events hnext =>
              rw [run_succ_again hr₁, run_succ_again hr₂]
              exact (ih hnext).preceded events
          | done events hresult =>
              rw [run_succ_done hr₁, run_succ_done hr₂]
              exact .ok ⟨rfl, hresult⟩
      | overflow hnoted =>
          -- The first loop is at its end; the second one may go on, with that chunk noted.
          rw [run_succ_error hr₁]
          refine .overflow fun r hr => ?_
          cases r₂ with
          | error fault =>
              rw [run_succ_error hr₂] at hr
              cases hr
          | ok q =>
              rcases hnoted q rfl with ⟨offset, length, hmem, hrange⟩
              exact ⟨offset, length, roundEvents_subset hr₂ hr hmem, hrange⟩

end Loops

/-! ## Sessions that correspond -/

section Likenesses

variable {S₁ M₁ S₂ M₂ : Type} {c₁ : Codec S₁ M₁} {c₂ : Codec S₂ M₂}

/-- Two steps did the same, and left sessions behind that correspond. -/
structure SteppedAlike (session : S₁ → S₂ → Prop) (r₁ : Stepped S₁) (r₂ : Stepped S₂) : Prop where
  session : session r₁.session r₂.session
  input : r₁.input = r₂.input
  output : r₁.output = r₂.output
  outcome : r₁.outcome = r₂.outcome

/-- How the sessions of two codecs correspond, and what the codecs remember. Whatever is
    done to both keeps it so. -/
structure Likeness (c₁ : Codec S₁ M₁) (c₂ : Codec S₂ M₂) where
  session : S₁ → S₂ → Prop
  memory : M₁ → M₂ → Prop
  -- Both can start a session, or neither can.
  start : ∀ {m₁ m₂}, memory m₁ m₂ →
    (∃ s₁ s₂ m₁' m₂', c₁.start m₁ = (.ok s₁, m₁') ∧ c₂.start m₂ = (.ok s₂, m₂') ∧
      session s₁ s₂ ∧ memory m₁' m₂') ∨
    (∃ cause m₁' m₂', c₁.start m₁ = (.error cause, m₁') ∧ c₂.start m₂ = (.error cause, m₂') ∧
      memory m₁' m₂')
  stop : ∀ {s₁ s₂ m₁ m₂}, session s₁ s₂ → memory m₁ m₂ →
    memory (c₁.stop s₁ m₁) (c₂.stop s₂ m₂)
  step : ∀ {s₁ s₂}, session s₁ s₂ → ∀ {input : Cursor} {buffer : List UInt8}, input.InBounds →
    buffer ≠ [] → SteppedAlike session (c₁.step s₁ input (.ofBytes buffer))
      (c₂.step s₂ input (.ofBytes buffer))
  total : ∀ {s₁ s₂}, session s₁ s₂ → c₁.totalOut s₁ = c₂.totalOut s₂

namespace Likeness

variable (L : Likeness c₁ c₂)

/-- Both decoders have a session, and these correspond, or neither has one. -/
inductive Live : Option S₁ → Option S₂ → Prop
  | none : Live none none
  | some {s₁ : S₁} {s₂ : S₂} (h : L.session s₁ s₂) : Live (some s₁) (some s₂)

/-- The first decoder is ahead of the second by `o`, and that is all there is between them. -/
structure Shifted (o : Nat) (d₁ : Decoder c₁) (d₂ : Decoder c₂) : Prop where
  memory : L.memory d₁.memory d₂.memory
  session : L.Live d₁.session d₂.session
  outputOffset : d₁.outputOffset = d₂.outputOffset + o
  memberBase : d₁.memberBase = d₂.memberBase + o
  consumed : d₁.consumed = d₂.consumed
  finished : d₁.finished = d₂.finished
  bufferSize : d₁.bufferSize = d₂.bufferSize
  multipleMembers : d₁.multipleMembers = d₂.multipleMembers

/-- What two calls leave behind: the same, further on by `o`. -/
structure OutcomeShifted {α : Type} (f : α → α) (o : Nat) (o₁ : Outcome c₁ α) (o₂ : Outcome c₂ α) :
    Prop where
  decoder : L.Shifted (shiftAfter o o₂.result) o₁.decoder o₂.decoder
  events : o₁.events = o₂.events.map (Event.shift o)
  result : o₁.result = shiftResult f o o₂.result

/-- Two scenes: the same input, and sinks that are related. -/
structure SceneShifted {ι σ₁ σ₂ : Type} (P : σ₁ → σ₂ → Prop) (o : Nat) (w₁ : Scene c₁ ι σ₁)
    (w₂ : Scene c₂ ι σ₂) : Prop where
  decoder : L.Shifted o w₁.decoder w₂.decoder
  input : w₁.input = w₂.input
  sink : P w₁.sink w₂.sink

/-- What two calls with a sink leave behind. -/
structure TurnShifted {ι σ₁ σ₂ α : Type} (P : σ₁ → σ₂ → Prop) (f : α → α) (o : Nat)
    (t₁ : Turn c₁ ι σ₁ α) (t₂ : Turn c₂ ι σ₂ α) : Prop where
  decoder : L.Shifted (shiftAfter o t₂.result) t₁.decoder t₂.decoder
  input : t₁.input = t₂.input
  sink : P t₁.sink t₂.sink
  result : t₁.result = shiftResult f o t₂.result

variable {L} {o : Nat} {d₁ : Decoder c₁} {d₂ : Decoder c₂}

namespace Shifted

/-! ## Sessions started, ended and replaced -/

theorem retire (h : L.Shifted o d₁ d₂) : L.memory d₁.retire d₂.retire := by
  have hlive := h.session
  generalize hs₁ : d₁.session = s₁ at hlive
  generalize hs₂ : d₂.session = s₂ at hlive
  cases hlive with
  | none =>
      rw [retire_of_none hs₁, retire_of_none hs₂]
      exact h.memory
  | some hs =>
      rw [retire_of_some hs₁, retire_of_some hs₂]
      exact L.stop hs h.memory

-- Fresh sessions at offsets that differ by `o'`, whatever the offsets were before.
theorem startedAt (h : L.Shifted o d₁ d₂) {o' offset₁ offset₂ : Nat} {s₁ : S₁} {s₂ : S₂}
    {m₁ : M₁} {m₂ : M₂} (hs : L.session s₁ s₂) (hm : L.memory m₁ m₂)
    (hoffset : offset₁ = offset₂ + o') :
    L.Shifted o' (d₁.startedAt offset₁ s₁ m₁) (d₂.startedAt offset₂ s₂ m₂) :=
  ⟨hm, .some hs, hoffset, hoffset, rfl, rfl, h.bufferSize, h.multipleMembers⟩

theorem refusedAt (h : L.Shifted o d₁ d₂) {o' offset₁ offset₂ : Nat} {m₁ : M₁} {m₂ : M₂}
    (hm : L.memory m₁ m₂) (hoffset : offset₁ = offset₂ + o') :
    L.Shifted o' (d₁.refusedAt offset₁ m₁) (d₂.refusedAt offset₂ m₂) :=
  ⟨hm, .none, hoffset, hoffset, rfl, rfl, h.bufferSize, h.multipleMembers⟩

/-- Decoders that have been reset are on a par. -/
theorem reset (h : L.Shifted o d₁ d₂) :
    L.Shifted 0 d₁.reset.decoder d₂.reset.decoder ∧ d₁.reset.events = d₂.reset.events ∧
      d₁.reset.result = d₂.reset.result := by
  rcases L.start h.retire with ⟨s₁, s₂, m₁, m₂, hstart₁, hstart₂, hs, hm⟩ |
    ⟨cause, m₁, m₂, hstart₁, hstart₂, hm⟩
  · rw [reset_of_ok hstart₁, reset_of_ok hstart₂]
    exact ⟨h.startedAt hs hm rfl, rfl, rfl⟩
  · rw [reset_of_error hstart₁, reset_of_error hstart₂]
    exact ⟨h.refusedAt hm rfl, rfl, rfl⟩

-- A failure that is reported after starting over.
theorem failAfter {α : Type} (f : α → α) (h : L.Shifted o d₁ d₂) (noted : Event)
    {error : DecodeError} (hover : error.startsOver = true) :
    L.OutcomeShifted f o (d₁.failAfter (noted.shift o) (error.shift o) : Outcome c₁ α)
      (d₂.failAfter noted error) := by
  rcases h.reset with ⟨hdecoder, hevents, _⟩
  refine ⟨?_, ?_, rfl⟩
  · simp only [failAfter_result, shiftAfter, startedOver, hover, if_true, failAfter_decoder]
    exact hdecoder
  · simp only [failAfter_events, List.map_cons, hevents, reset_events_shift]

theorem fail {α : Type} (f : α → α) (h : L.Shifted o d₁ d₂) {error : DecodeError}
    (hover : error.startsOver = true) :
    L.OutcomeShifted f o (d₁.fail (error.shift o) : Outcome c₁ α) (d₂.fail error) :=
  h.failAfter f (.failed error) hover

theorem isReady (h : L.Shifted o d₁ d₂) : d₁.isReady = d₂.isReady := by
  have hlive := h.session
  unfold Decoder.isReady
  generalize d₁.session = s₁ at hlive
  generalize d₂.session = s₂ at hlive
  cases hlive <;> rfl

theorem release (h : L.Shifted o d₁ d₂) : L.OutcomeShifted id o d₁.release d₂.release := by
  refine ⟨?_, ?_, rfl⟩
  · unfold Decoder.release
    rw [endSession_eq, endSession_eq]
    exact ⟨h.retire, .none, h.outputOffset, h.memberBase, h.consumed, h.finished, h.bufferSize,
      h.multipleMembers⟩
  · unfold Decoder.release
    rw [h.isReady, h.outputOffset]
    cases d₂.isReady <;> rfl

theorem isPending (h : L.Shifted o d₁ d₂) : d₁.isPending = d₂.isPending := by
  rw [Decoder.isPending, Decoder.isPending, h.consumed, h.finished]

theorem finish (h : L.Shifted o d₁ d₂) : L.OutcomeShifted id o d₁.finish d₂.finish := by
  cases hp : d₂.isPending with
  | true =>
      rw [finish_of_pending hp, finish_of_pending (h.isPending.trans hp), h.outputOffset]
      exact h.fail id (show DecodeError.startsOver (.truncated d₂.outputOffset) = true from rfl)
  | false =>
      rw [finish_of_not_pending hp, finish_of_not_pending (h.isPending.trans hp)]
      exact ⟨h, rfl, rfl⟩

/-! ## One attempt -/

variable {σ₁ σ₂ : Type} {P : σ₁ → σ₂ → Prop} {input : Cursor}

-- Before a buffer is asked for: both stop, or both go on.
theorem enter (h : L.Shifted o d₁ d₂) (input : Cursor) :
    (d₁.enter input = .error .inputOverrun ∧ d₂.enter input = .error .inputOverrun) ∨
    (∃ o₁ o₂, d₁.enter input = .ok (.stop o₁) ∧ d₂.enter input = .ok (.stop o₂) ∧
      L.OutcomeShifted (Progress.shift o) o o₁ o₂) ∨
    (∃ events e₁ e₂, d₁.enter input = .ok (.go (events.map (Event.shift o)) e₁) ∧
      d₂.enter input = .ok (.go events e₂) ∧ L.Shifted o e₁ e₂) := by
  unfold Decoder.enter
  rw [h.finished, h.multipleMembers]
  by_cases hfinished : d₂.finished = true
  case neg =>
    -- The stream goes on.
    rw [if_neg hfinished, if_neg hfinished]
    exact Or.inr (Or.inr ⟨[], d₁, d₂, rfl, rfl, h⟩)
  rw [if_pos hfinished, if_pos hfinished]
  cases input.rest? with
  | none => exact Or.inl ⟨rfl, rfl⟩
  | some rest =>
      cases rest with
      | nil => exact Or.inr (Or.inl ⟨_, _, rfl, rfl, ⟨h, rfl, rfl⟩⟩)
      | cons b bs =>
          by_cases hmultiple : d₂.multipleMembers = true
          case neg =>
            simp only [if_neg hmultiple]
            exact Or.inr (Or.inr ⟨[], d₁, d₂, rfl, rfl, h⟩)
          simp only [if_pos hmultiple]
          rcases L.start h.retire with ⟨s₁, s₂, m₁, m₂, hstart₁, hstart₂, hs, hm⟩ |
            ⟨cause, m₁, m₂, hstart₁, hstart₂, hm⟩
          · rw [nextMember_of_ok hstart₁, nextMember_of_ok hstart₂]
            refine Or.inr (Or.inr ⟨[.nextMember d₂.outputOffset], _, _, ?_, rfl,
              h.startedAt hs hm h.outputOffset⟩)
            rw [h.outputOffset]
            rfl
          · rw [nextMember_of_error hstart₁, nextMember_of_error hstart₂]
            refine Or.inr (Or.inl ⟨_, _, rfl, rfl, ⟨h.refusedAt hm h.outputOffset, ?_, rfl⟩⟩)
            rw [h.outputOffset]
            rfl

-- The decoders after steps that did the same.
theorem returnSession (h : L.Shifted o d₁ d₂) {r₁ : Stepped S₁} {r₂ : Stepped S₂}
    (hr : SteppedAlike L.session r₁ r₂) (input : Cursor) :
    L.Shifted o (d₁.returnSession r₁.session input r₁.input)
      (d₂.returnSession r₂.session input r₂.input) where
  memory := h.memory
  session := .some hr.session
  outputOffset := h.outputOffset
  memberBase := h.memberBase
  consumed := by simp only [Decoder.returnSession, h.consumed, hr.input]
  finished := h.finished
  bufferSize := h.bufferSize
  multipleMembers := h.multipleMembers

theorem afterStep (h : L.Shifted o d₁ d₂) {r₁ : Stepped S₁} {r₂ : Stepped S₂}
    (hr : SteppedAlike L.session r₁ r₂) (input : Cursor) (status : Status) :
    L.Shifted o (d₁.afterStep input r₁ status) (d₂.afterStep input r₂ status) := by
  have hreturn := h.returnSession hr input
  cases status with
  | progress => exact hreturn
  | streamEnd =>
      exact ⟨hreturn.memory, hreturn.session, hreturn.outputOffset, hreturn.memberBase,
        hreturn.consumed, rfl, hreturn.bufferSize, hreturn.multipleMembers⟩

theorem hasFurtherMember (h : L.Shifted o d₁ d₂) (input : Cursor) :
    d₁.hasFurtherMember input = d₂.hasFurtherMember input := by
  rw [Decoder.hasFurtherMember, Decoder.hasFurtherMember, h.multipleMembers]

theorem isLast (h : L.Shifted o d₁ d₂) (input : Cursor) (status : Status) :
    d₁.isLast input status = d₂.isLast input status := by
  cases status with
  | progress => rfl
  | streamEnd => rw [Decoder.isLast, Decoder.isLast, h.hasFurtherMember]

theorem moved (h : L.Shifted o d₁ d₂) (amount : Nat) :
    L.Shifted o ({ d₁ with outputOffset := d₁.outputOffset + amount } : Decoder c₁)
      ({ d₂ with outputOffset := d₂.outputOffset + amount } : Decoder c₂) :=
  ⟨h.memory, h.session, by simp only [h.outputOffset]; omega, h.memberBase, h.consumed, h.finished,
    h.bufferSize, h.multipleMembers⟩

theorem resized (h : L.Shifted o d₁ d₂) (size : BufferSize) :
    L.Shifted o ({ d₁ with bufferSize := size } : Decoder c₁)
      ({ d₂ with bufferSize := size } : Decoder c₂) :=
  ⟨h.memory, h.session, h.outputOffset, h.memberBase, h.consumed, h.finished, rfl,
    h.multipleMembers⟩

/-- A chunk: its offset is shifted, or it is out of range for the decoder that is ahead. -/
theorem concludeChunk (h : L.Shifted o d₁ d₂) {s₁ : S₁} {s₂ : S₂} (hs₁ : d₁.session = some s₁)
    (hs₂ : d₂.session = some s₂) (hs : L.session s₁ s₂) (input : Cursor) (status : Status)
    (data : List UInt8) :
    Agree o Outcome.events (L.OutcomeShifted (Progress.shift o) o)
      (d₁.concludeChunk input status data) (d₂.concludeChunk input status data) := by
  have hoffset := h.outputOffset
  have hbase := h.memberBase
  have htotal := L.total hs
  by_cases hcount : d₂.outputOffset + data.length = d₂.memberBase + c₂.totalOut s₂
  case neg =>
    -- The counts differ by as much as before.
    have hcount₁ : ¬ d₁.outputOffset + data.length = d₁.memberBase + c₁.totalOut s₁ := by omega
    rcases concludeChunk_of_miscount input status hs₁ fun hc => hcount₁ hc.1 with ⟨f₁, hf₁, hne₁⟩
    rcases concludeChunk_of_miscount input status hs₂ fun hc => hcount hc.1 with ⟨f₂, hf₂, hne₂⟩
    rw [hf₁, hf₂]
    exact .fault ⟨fun hc => absurd hc hne₁, fun hc => absurd hc hne₂⟩
  have hcount₁ : d₁.outputOffset + data.length = d₁.memberBase + c₁.totalOut s₁ := by omega
  by_cases hrange : d₂.outputOffset + data.length < offsetLimit
  case neg =>
    -- What is out of range for the second is so for the first.
    have hrange₁ : ¬ d₁.outputOffset + data.length < offsetLimit := by omega
    rw [concludeChunk_of_overflow input status hs₁ hcount₁ hrange₁]
    rw [concludeChunk_of_overflow input status hs₂ hcount hrange]
    exact .fault Iff.rfl
  rw [concludeChunk_of_count hs₂ hcount hrange]
  by_cases hrange₁ : d₁.outputOffset + data.length < offsetLimit
  case neg =>
    -- Only the first is out of range: this is where being ahead tells.
    rw [concludeChunk_of_overflow input status hs₁ hcount₁ hrange₁]
    refine .overflow fun b hb => ?_
    cases hb
    exact ⟨d₂.outputOffset, data.length, List.mem_cons_self, hrange, by omega⟩
  rw [concludeChunk_of_count hs₁ hcount₁ hrange₁, h.isLast]
  have hchunk : (⟨d₁.outputOffset, data⟩ : Chunk) = Chunk.shift o ⟨d₂.outputOffset, data⟩ := by
    rw [hoffset]
    rfl
  refine .ok ⟨h.moved data.length, ?_, ?_⟩
  · rw [hchunk, Event.shift_ofChunk]
  · rw [hchunk, ← Progress.shift_ofChunk]
    rfl

end Shifted

section Attempts

/-- What is noted by a verdict. -/
def verdictEvents {S M : Type} {c : Codec S M} : Verdict c × Cursor → List Event
  | (.again _, _) => []
  | (.answer o, _) => o.events

variable (L) in
/-- Two verdicts: the same, further on by `o`. -/
inductive VerdictShifted (o : Nat) : Verdict c₁ × Cursor → Verdict c₂ × Cursor → Prop
  | again {d₁ : Decoder c₁} {d₂ : Decoder c₂} (h : L.Shifted o d₁ d₂) (input : Cursor) :
      VerdictShifted o (.again d₁, input) (.again d₂, input)
  | answer {o₁ : Outcome c₁ Progress} {o₂ : Outcome c₂ Progress}
      (h : L.OutcomeShifted (Progress.shift o) o o₁ o₂) (input : Cursor) :
      VerdictShifted o (.answer o₁, input) (.answer o₂, input)

theorem Shifted.concludeEmpty (h : L.Shifted o d₁ d₂) (input : Cursor) (status : Status) :
    L.VerdictShifted o (d₁.concludeEmpty input status, input)
      (d₂.concludeEmpty input status, input) := by
  cases status with
  | progress => exact .answer ⟨h, rfl, rfl⟩ input
  | streamEnd =>
      simp only [Decoder.concludeEmpty, h.hasFurtherMember]
      by_cases hfurther : d₂.hasFurtherMember input = true
      · rw [if_pos hfurther, if_pos hfurther]
        exact .again h input
      · rw [if_neg hfurther, if_neg hfurther]
        exact .answer ⟨h, rfl, rfl⟩ input

/-- Sessions that correspond are run. -/
theorem runSession_alike (h : L.Shifted o d₁ d₂) {s₁ : S₁} {s₂ : S₂} (hs : L.session s₁ s₂)
    (input : Cursor) {buffer : List UInt8} (hroom : buffer ≠ []) :
    Agree o verdictEvents (L.VerdictShifted o) (d₁.runSession s₁ input buffer)
      (d₂.runSession s₂ input buffer) := by
  by_cases hbounds : input.InBounds
  case neg =>
    simp only [runSession, if_neg hbounds]
    exact .fault Iff.rfl
  have hstepped := L.step hs hbounds hroom
  generalize hr₁ : c₁.step s₁ input (.ofBytes buffer) = r₁ at hstepped
  generalize hr₂ : c₂.step s₂ input (.ofBytes buffer) = r₂ at hstepped
  by_cases hread : r₂.input.InBounds
  case neg =>
    have hread₁ : ¬ r₁.input.InBounds := by rw [hstepped.input]; exact hread
    simp only [runSession, hr₁, hr₂, if_pos hbounds, if_neg hread, if_neg hread₁]
    exact .fault Iff.rfl
  have hread₁ : r₁.input.InBounds := by rw [hstepped.input]; exact hread
  cases houtcome : r₂.outcome with
  | error error =>
      have houtcome₁ := hstepped.outcome.trans houtcome
      rw [runSession_of_error hr₁ hbounds hread₁ houtcome₁,
        runSession_of_error hr₂ hbounds hread houtcome, hstepped.input]
      have hreturn := h.returnSession hstepped input
      rw [hstepped.input] at hreturn
      exact .ok (.answer (hreturn.fail (Progress.shift o)
        (show DecodeError.startsOver (.ofStep error) = true from rfl)) r₂.input)
  | ok status =>
      have houtcome₁ := hstepped.outcome.trans houtcome
      have hafter := h.afterStep hstepped input status
      rw [runSession_of_ok hr₁ hbounds hread₁ houtcome₁,
        runSession_of_ok hr₂ hbounds hread houtcome, hstepped.input, hstepped.output]
      by_cases hwritten : r₂.output.InBounds
      case neg =>
        rw [if_neg hwritten, if_neg hwritten]
        exact .fault Iff.rfl
      rw [if_pos hwritten, if_pos hwritten]
      by_cases hfront : r₂.output.front = []
      · rw [if_pos hfront, if_pos hfront]
        exact .ok (hafter.concludeEmpty r₂.input status)
      · rw [if_neg hfront, if_neg hfront]
        have hs₁ : (d₁.afterStep input r₁ status).session = some r₁.session := afterStep_session
        have hs₂ : (d₂.afterStep input r₂ status).session = some r₂.session := afterStep_session
        have hchunk := hafter.concludeChunk hs₁ hs₂ hstepped.session r₂.input status r₂.output.front
        rw [map_map, map_map]
        refine hchunk.map (fun o₁ o₂ ho => ?_) fun o₂ => List.Subset.refl o₂.events
        exact .answer ho r₂.input

end Attempts

/-- Two ways to get buffers give the same, though one is asked further on. -/
def ServesAlike {σ₁ σ₂ : Type} (P : σ₁ → σ₂ → Prop) (o : Nat) (alloc₁ : Allocator σ₁)
    (alloc₂ : Allocator σ₂) : Prop :=
  ∀ k₁ k₂, P k₁ k₂ → ∀ offset size, (alloc₁ k₁ (offset + o) size).1 = (alloc₂ k₂ offset size).1 ∧
    P (alloc₁ k₁ (offset + o) size).2 (alloc₂ k₂ offset size).2

section Calls

variable {σ₁ σ₂ : Type} {P : σ₁ → σ₂ → Prop} {alloc₁ : Allocator σ₁} {alloc₂ : Allocator σ₂}

theorem request_alike (h : L.Shifted o d₁ d₂) (halloc : ServesAlike P o alloc₁ alloc₂) {k₁ : σ₁}
    {k₂ : σ₂} (hk : P k₁ k₂) :
    ∃ k₁' k₂', P k₁' k₂' ∧
      ((∃ buffer, buffer ≠ [] ∧ d₁.request alloc₁ k₁ = (.ok buffer, k₁') ∧
          d₂.request alloc₂ k₂ = (.ok buffer, k₂')) ∨
        (∃ cause, d₁.request alloc₁ k₁ = (.error (.alloc cause), k₁') ∧
          d₂.request alloc₂ k₂ = (.error (.alloc cause), k₂'))) := by
  have hserve := halloc k₁ k₂ hk d₂.outputOffset d₂.bufferSize.toNat
  unfold request
  rw [h.outputOffset, h.bufferSize]
  rcases hserved₁ : alloc₁ k₁ (d₂.outputOffset + o) d₂.bufferSize.toNat with ⟨answer₁, k₁'⟩
  rcases hserved₂ : alloc₂ k₂ d₂.outputOffset d₂.bufferSize.toNat with ⟨answer₂, k₂'⟩
  rw [hserved₁, hserved₂] at hserve
  rcases hserve with ⟨hanswer, hk'⟩
  refine ⟨k₁', k₂', hk', ?_⟩
  dsimp only at hanswer
  subst hanswer
  cases answer₁ with
  | error cause => exact Or.inr ⟨cause, rfl, rfl⟩
  | ok buffer =>
      by_cases hsize : buffer.length = d₂.bufferSize.toNat
      · refine Or.inl ⟨buffer, ?_, by simp only [if_pos hsize], by simp only [if_pos hsize]⟩
        have hpos := d₂.bufferSize.pos
        rw [← hsize] at hpos
        exact List.length_pos_iff.mp hpos
      · exact Or.inr ⟨wrongSize d₂.bufferSize.toNat buffer.length, by simp only [if_neg hsize],
          by simp only [if_neg hsize]⟩

theorem answer_alike {o₁ : Outcome c₁ Progress} {o₂ : Outcome c₂ Progress}
    (h : L.OutcomeShifted (Progress.shift o) o o₁ o₂) (events : List Event) (input : Cursor)
    {k₁ : σ₁} {k₂ : σ₂} (hk : P k₁ k₂) :
    RoundAlike o (L.SceneShifted P o) (L.TurnShifted P (Progress.shift o) o)
      (answer (events.map (Event.shift o)) o₁ input k₁) (answer events o₂ input k₂) := by
  unfold answer
  rw [h.events, ← List.map_append]
  exact .done _ ⟨h.decoder, rfl, hk, h.result⟩

theorem attempt_alike (halloc : ServesAlike P o alloc₁ alloc₂) {w₁ : Scene c₁ Cursor σ₁}
    {w₂ : Scene c₂ Cursor σ₂} (h : L.SceneShifted P o w₁ w₂) :
    Agree o roundEvents (RoundAlike o (L.SceneShifted P o) (L.TurnShifted P (Progress.shift o) o))
      (attempt alloc₁ w₁) (attempt alloc₂ w₂) := by
  rcases w₁ with ⟨d₁, input, k₁⟩
  rcases w₂ with ⟨d₂, input₂, k₂⟩
  have hinput : input = input₂ := h.input
  subst hinput
  rcases Shifted.enter h.decoder input with ⟨h₁, h₂⟩ | ⟨o₁, o₂, h₁, h₂, ho⟩ |
    ⟨events, e₁, e₂, h₁, h₂, he⟩
  · simp only [attempt, h₁, h₂]
    exact .fault Iff.rfl
  · simp only [attempt, h₁, h₂]
    exact .ok (answer_alike ho [] input h.sink)
  rcases request_alike he halloc h.sink with
    ⟨k₁', k₂', hk, ⟨buffer, hroom, hr₁, hr₂⟩ | ⟨cause, hr₁, hr₂⟩⟩
  case inr =>
    simp only [attempt, h₁, h₂, hr₁, hr₂]
    exact .ok (answer_alike (he.fail _ (show DecodeError.startsOver (.alloc cause) = true from rfl))
      events input hk)
  have hlive := he.session
  generalize hs₁ : e₁.session = s₁ at hlive
  generalize hs₂ : e₂.session = s₂ at hlive
  cases hlive with
  | none =>
      simp only [attempt, h₁, h₂, hr₁, hr₂, lend?, hs₁, hs₂]
      exact .ok (answer_alike ⟨he, rfl, rfl⟩ events input hk)
  | some hs =>
      rw [attempt_eq_runSession h₁ hr₁ hs₁, attempt_eq_runSession h₂ hr₂ hs₂]
      refine (runSession_alike he hs input hroom).map (fun v₁ v₂ hv => ?_) fun v => ?_
      · cases hv with
        | again hd input' => exact .again events ⟨hd, rfl, hk⟩
        | answer ho input' => exact answer_alike ho events input' hk
      · rcases v with ⟨d | o, input'⟩
        · exact List.nil_subset _
        · exact List.subset_append_right events o.events

/-! ## Whole calls -/

theorem step_alike (halloc : ServesAlike P o alloc₁ alloc₂) (fuel : Nat) {w₁ : Scene c₁ Cursor σ₁}
    {w₂ : Scene c₂ Cursor σ₂} (h : L.SceneShifted P o w₁ w₂) :
    Agree o Logged.events (LoggedAlike o (L.TurnShifted P (Progress.shift o) o))
      (Decoder.step fuel alloc₁ w₁) (Decoder.step fuel alloc₂ w₂) := by
  unfold Decoder.step
  rw [Shifted.isReady h.decoder]
  by_cases hready : w₂.decoder.isReady = true
  · rw [if_pos hready, if_pos hready]
    exact run_alike (fun _ _ => attempt_alike halloc) fuel h
  · rw [if_neg hready, if_neg hready]
    exact .ok ⟨rfl, ⟨h.decoder, h.input, h.sink, rfl⟩⟩

variable [Sink σ₁] [Sink σ₂]

/-- Two kinds of sinks take the same chunks, though one is handed them further on. -/
def TakesAlike (P : σ₁ → σ₂ → Prop) (o : Nat) : Prop :=
  ∀ k₁ k₂, P k₁ k₂ → ∀ chunk, (Sink.push k₁ (Chunk.shift o chunk)).1 = (Sink.push k₂ chunk).1 ∧
    P (Sink.push k₁ (Chunk.shift o chunk)).2 (Sink.push k₂ chunk).2

theorem deliverThen_alike (htake : TakesAlike P o) (last : Bool) (events : List Event)
    (chunk : Chunk)
    {w₁ : Scene c₁ Cursor σ₁} {w₂ : Scene c₂ Cursor σ₂} (h : L.SceneShifted P o w₁ w₂) :
    RoundAlike o (L.SceneShifted P o) (L.TurnShifted P id o)
      (deliverThen last (events.map (Event.shift o)) (chunk.shift o) w₁)
      (deliverThen last events chunk w₂) := by
  rcases w₁ with ⟨d₁, input, k₁⟩
  rcases w₂ with ⟨d₂, input₂, k₂⟩
  have hinput : input = input₂ := h.input
  subst hinput
  have hpush := htake k₁ k₂ h.sink chunk
  rcases hpush₁ : Sink.push k₁ (chunk.shift o) with ⟨answer₁, k₁'⟩
  rcases hpush₂ : Sink.push k₂ chunk with ⟨answer₂, k₂'⟩
  rw [hpush₁, hpush₂] at hpush
  rcases hpush with ⟨hanswer, hk⟩
  dsimp only at hanswer
  subst hanswer
  cases answer₁ with
  | error cause =>
      rw [deliverThen_of_error hpush₁, deliverThen_of_error hpush₂]
      rcases Shifted.reset h.decoder with ⟨hreset, hevents, _⟩
      have hmap : events.map (Event.shift o) ++
          .chunkRejected (chunk.shift o).offset cause :: d₁.reset.events =
          (events ++ .chunkRejected chunk.offset cause :: d₂.reset.events).map (Event.shift o) := by
        rw [List.map_append, List.map_cons, reset_events_shift, hevents]
        rfl
      rw [hmap]
      exact .done _ ⟨hreset, rfl, hk, rfl⟩
  | ok taken =>
      rw [deliverThen_of_ok hpush₁, deliverThen_of_ok hpush₂]
      cases last with
      | true => exact .done events ⟨h.decoder, rfl, hk, rfl⟩
      | false => exact .again events ⟨h.decoder, rfl, hk⟩

theorem takeProgress_alike (htake : TakesAlike P o) (events : List Event)
    {t₁ : Turn c₁ Cursor σ₁ Progress} {t₂ : Turn c₂ Cursor σ₂ Progress}
    (h : L.TurnShifted P (Progress.shift o) o t₁ t₂) :
    RoundAlike o (L.SceneShifted P o) (L.TurnShifted P id o)
      (takeProgress (events.map (Event.shift o)) t₁) (takeProgress events t₂) := by
  rcases t₁ with ⟨w₁, result₁⟩
  rcases t₂ with ⟨w₂, result⟩
  rcases h with ⟨hdecoder, hinput, hsink, hresult⟩
  dsimp only at hdecoder hinput hsink hresult
  subst hresult
  rcases result with error | chunk | last | _
  · exact .done events ⟨hdecoder, hinput, hsink, rfl⟩
  · exact deliverThen_alike htake false events chunk ⟨hdecoder, hinput, hsink⟩
  · cases last with
    | none => exact .done events ⟨hdecoder, hinput, hsink, rfl⟩
    | some chunk => exact deliverThen_alike htake true events chunk ⟨hdecoder, hinput, hsink⟩
  · exact .done events ⟨hdecoder, hinput, hsink, rfl⟩

theorem roundEvents_takeProgress {S M σ : Type} {c : Codec S M} [Sink σ] (events : List Event)
    (turn : Turn c Cursor σ Progress) : events ⊆ roundEvents (takeProgress events turn) := by
  have hearlier : takeProgress events turn = roundAfter events (takeProgress [] turn) := by
    rw [← takeProgress_append, List.append_nil]
  rw [hearlier]
  cases takeProgress [] turn with
  | again later next => exact List.subset_append_left events later
  | done later turn' => exact List.subset_append_left events later

theorem pushRound_alike (hserve : ServesAlike P o Sink.alloc Sink.alloc) (htake : TakesAlike P o)
    (fuel : Nat) {w₁ : Scene c₁ Cursor σ₁} {w₂ : Scene c₂ Cursor σ₂}
    (h : L.SceneShifted P o w₁ w₂) :
    Agree o roundEvents (RoundAlike o (L.SceneShifted P o) (L.TurnShifted P id o))
      (pushRound fuel w₁) (pushRound fuel w₂) := by
  rw [pushRound_eq, pushRound_eq]
  refine (step_alike hserve fuel h).map (fun r₁ r₂ hr => ?_) fun r => ?_
  · rw [hr.events]
    exact takeProgress_alike htake r₂.events hr.result
  · exact roundEvents_takeProgress r.events r.result

/-- Pushing the same into related sinks. -/
theorem push_alike (hserve : ServesAlike P o Sink.alloc Sink.alloc) (htake : TakesAlike P o)
    (fuel : Nat) {w₁ : Scene c₁ Cursor σ₁} {w₂ : Scene c₂ Cursor σ₂}
    (h : L.SceneShifted P o w₁ w₂) :
    Agree o Logged.events (LoggedAlike o (L.TurnShifted P id o)) (pushCursor fuel w₁)
      (pushCursor fuel w₂) :=
  run_alike (fun _ _ => pushRound_alike hserve htake fuel) fuel h

omit [Sink σ₁] [Sink σ₂] in
theorem takePush_alike (reader : Reader) (events : List Event) {t₁ : Turn c₁ Cursor σ₁ Bool}
    {t₂ : Turn c₂ Cursor σ₂ Bool} (h : L.TurnShifted P id o t₁ t₂) :
    RoundAlike o (L.SceneShifted P o) (L.TurnShifted P id o)
      (takePush reader (events.map (Event.shift o)) t₁) (takePush reader events t₂) := by
  rcases t₁ with ⟨⟨d₁, input, k₁⟩, result₁⟩
  rcases t₂ with ⟨⟨d₂, input₂, k₂⟩, result⟩
  rcases h with ⟨hdecoder, hinput, hsink, hresult⟩
  dsimp only at hdecoder hinput hsink hresult
  subst hresult hinput
  cases result with
  | error error => exact .done events ⟨hdecoder, rfl, hsink, rfl⟩
  | ok ended =>
      have hmultiple : d₁.multipleMembers = d₂.multipleMembers := hdecoder.multipleMembers
      simp only [takePush, shiftResult, hmultiple, id_eq]
      by_cases hlast : (ended && !d₂.multipleMembers) = true
      · rw [if_pos hlast, if_pos hlast]
        exact .done events ⟨hdecoder, rfl, hsink, rfl⟩
      · rw [if_neg hlast, if_neg hlast]
        exact .again events ⟨hdecoder, rfl, hsink⟩

theorem roundEvents_takePush {S M σ : Type} {c : Codec S M} [Sink σ] (reader : Reader)
    (events : List Event) (turn : Turn c Cursor σ Bool) :
    roundEvents (takePush reader events turn) = events := by
  rcases turn with ⟨⟨d, input, sink⟩, error | ended⟩
  · rfl
  · by_cases hlast : (ended && !d.multipleMembers) = true
    · simp only [takePush, if_pos hlast, roundEvents]
    · simp only [takePush, if_neg hlast, roundEvents]

omit [Sink σ₁] [Sink σ₂] in
theorem endRead_alike {o₁ : Outcome c₁ Unit} {o₂ : Outcome c₂ Unit}
    (h : L.OutcomeShifted id o o₁ o₂) (reader : Reader) {k₁ : σ₁} {k₂ : σ₂} (hk : P k₁ k₂) :
    RoundAlike o (L.SceneShifted P o) (L.TurnShifted P id o) (endRead o₁ reader k₁)
      (endRead o₂ reader k₂) := by
  unfold endRead
  rw [h.events]
  exact .done o₂.events ⟨h.decoder, rfl, hk, h.result⟩

theorem readRound_alike (hserve : ServesAlike P o Sink.alloc Sink.alloc) (htake : TakesAlike P o)
    (fuel : Nat) {w₁ : Scene c₁ Reader σ₁} {w₂ : Scene c₂ Reader σ₂}
    (h : L.SceneShifted P o w₁ w₂) :
    Agree o roundEvents (RoundAlike o (L.SceneShifted P o) (L.TurnShifted P id o))
      (readRound fuel w₁) (readRound fuel w₂) := by
  rcases w₁ with ⟨d₁, reader, k₁⟩
  rcases w₂ with ⟨d₂, reader₂, k₂⟩
  rcases h with ⟨hdecoder, hreader, hsink⟩
  dsimp only at hdecoder hreader hsink
  subst hreader
  rcases hfill : reader.fill with ⟨cause | buffer, reader'⟩
  · rw [readRound_of_fail hfill, readRound_of_fail hfill]
    by_cases hkind : cause.kind = .interrupted
    · rw [if_pos hkind, if_pos hkind]
      exact .ok (.again [] ⟨hdecoder, rfl, hsink⟩)
    · rw [if_neg hkind, if_neg hkind]
      exact .ok (endRead_alike (hdecoder.fail id
        (show DecodeError.startsOver (.input cause) = true from rfl)) reader' hsink)
  · by_cases hmore : buffer = []
    · subst hmore
      rw [readRound_of_end hfill, readRound_of_end hfill]
      exact .ok (endRead_alike hdecoder.finish reader' hsink)
    · rw [readRound_of_data hfill hmore, readRound_of_data hfill hmore]
      have hpush : Agree o Logged.events (LoggedAlike o (L.TurnShifted P id o))
          (d₁.push fuel buffer k₁) (d₂.push fuel buffer k₂) :=
        push_alike hserve htake fuel ⟨hdecoder, rfl, hsink⟩
      refine hpush.map (fun r₁ r₂ hr => ?_) fun r => ?_
      · rw [hr.events]
        exact takePush_alike reader' r₂.events hr.result
      · rw [roundEvents_takePush]
        exact List.Subset.refl r.events

theorem readAll_alike (hserve : ServesAlike P o Sink.alloc Sink.alloc) (htake : TakesAlike P o)
    (fuel : Nat) (h : L.Shifted o d₁ d₂) (reader : Reader) {k₁ : σ₁} {k₂ : σ₂} (hk : P k₁ k₂) :
    Agree o Logged.events (LoggedAlike o (L.TurnShifted P id o)) (d₁.readAll fuel reader k₁)
      (d₂.readAll fuel reader k₂) :=
  run_alike (fun _ _ => readRound_alike hserve htake fuel) fuel ⟨h, rfl, hk⟩

end Calls

end Likeness

end Likenesses

/-! ## The same codec -/

section Reflexivity

variable {S M : Type} {c : Codec S M}

open Likeness

/-- A codec is like itself. -/
def Likeness.refl (c : Codec S M) : Likeness c c where
  session s₁ s₂ := s₁ = s₂
  memory m₁ m₂ := m₁ = m₂
  start := by
    rintro m₁ m₂ rfl
    rcases h : c.start m₁ with ⟨cause | s, memory⟩
    · exact Or.inr ⟨cause, memory, memory, rfl, rfl, rfl⟩
    · exact Or.inl ⟨s, s, memory, memory, rfl, rfl, rfl, rfl⟩
  stop := by
    rintro s₁ s₂ m₁ m₂ rfl rfl
    rfl
  step := by
    rintro s₁ s₂ rfl input buffer _ _
    exact ⟨rfl, rfl, rfl, rfl⟩
  total := by
    rintro s₁ s₂ rfl
    rfl

theorem Likeness.shifted_refl_iff {d₁ d₂ : Decoder c} :
    (Likeness.refl c).Shifted 0 d₁ d₂ ↔ d₁ = d₂ := by
  constructor
  · intro h
    have hsession : d₁.session = d₂.session := by
      have hlive := h.session
      generalize d₁.session = s₁ at hlive
      generalize d₂.session = s₂ at hlive
      cases hlive with
      | none => rfl
      | some hs => exact congrArg some hs
    cases d₁
    cases d₂
    simp only [Decoder.mk.injEq]
    exact ⟨h.memory, hsession, h.outputOffset, h.memberBase, h.consumed, h.finished, h.bufferSize,
      h.multipleMembers⟩
  · rintro rfl
    refine ⟨rfl, ?_, rfl, rfl, rfl, rfl, rfl, rfl⟩
    cases d₁.session with
    | none => exact .none
    | some s => exact .some rfl

theorem Likeness.serves_eq {σ : Type} {alloc : Allocator σ} : ServesAlike Eq 0 alloc alloc := by
  rintro k₁ k₂ rfl offset size
  exact ⟨rfl, rfl⟩

theorem Likeness.takes_eq {σ : Type} [Sink σ] : TakesAlike (Eq : σ → σ → Prop) 0 := by
  rintro k₁ k₂ rfl chunk
  exact ⟨rfl, rfl⟩

/-- Two calls on the same decoder that are alike come to the same. -/
theorem LoggedAlike.eq_of_refl {ι σ₁ σ₂ α : Type} {P : σ₁ → σ₂ → Prop} {f : α → α}
    {r₁ : Logged Event (Turn c ι σ₁ α)} {r₂ : Logged Event (Turn c ι σ₂ α)}
    (h : LoggedAlike 0 ((Likeness.refl c).TurnShifted P f 0) r₁ r₂) (hf : ∀ a, f a = a) :
    r₁.events = r₂.events ∧ r₁.result.decoder = r₂.result.decoder ∧
      r₁.result.input = r₂.result.input ∧ r₁.result.result = r₂.result.result := by
  have hevents := h.events
  rw [map_shift_zero] at hevents
  have hdecoder := h.result.decoder
  rw [shiftAfter_zero] at hdecoder
  have hresult := h.result.result
  rw [shiftResult_zero hf] at hresult
  exact ⟨hevents, Likeness.shifted_refl_iff.mp hdecoder, h.result.input, hresult⟩

end Reflexivity

end Decompression
