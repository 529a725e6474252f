import Decompression.Proofs.Simulation

/-!
# What the Log Tells

Every failure is noted where it happens, and the log has a level of its own for failures. A
step that answers with an error has noted this error, and noted no other before it; what may
come after it in the log is whether the decoder could be given a new session. A step that
does not fail has noted nothing at this level. This is `Told`, and it is kept when something
that tells of no failure comes before, so it passes from attempts to whatever is made of them.

The log also tells of every chunk that was filled. A step fills the chunk that it answers
with, and no other.

## Main definitions

* `Event.failure?`, `firstFailure`: The failure that an event is about, and the first in a log.
* `reported`: The failure that a call answers with.
* `Quiet`: A log that tells of no failure.
* `Notes`: How an error is noted.
* `Aftermath`: What is noted after an error.
* `Told`: The log tells of the answer.
* `Event.span?`, `spans`: The chunks that a log tells of.

## Theorems

* `Event.level_eq_error_iff`: The level of failures is that of the events that tell of one.
* `Told.preceded`: What tells of no failure may come before.
* `told_attempt`, `told_step`, `told_finish`: The log of an attempt, of a step, and of the end of
  the input.
* `firstFailure_step`: The first failure in the log of a step is the one that it answers with.
* `spans_step`: The log of a step tells of the chunk that it answers with.
-/

namespace Decompression

open Decoder Loop

variable {S M σ α : Type} {c : Codec S M}

/-! ## Failures -/

/-- The failure that an event is about. -/
def Event.failure? : Event → Option DecodeError
  | .startFailed error | .failed error => some error
  | .notReady => some .notReady
  | .chunkRejected _ cause => some (.sink cause)
  | .sessionStarted | .sessionEnded _ | .nextMember _ | .chunkProduced _ _ | .streamEnded _ => none

/-- The first failure in a log. -/
def firstFailure (events : List Event) : Option DecodeError :=
  events.findSome? Event.failure?

/-- The failure that a call answers with. -/
def reported : Except DecodeError α → Option DecodeError
  | .error error => some error
  | .ok _ => none

theorem Event.level_eq_error_iff {event : Event} :
    event.level = .error ↔ event.failure?.isSome = true := by
  cases event <;> simp only [Event.level, Event.failure?, Option.isSome, reduceCtorEq]

theorem firstFailure_append (as bs : List Event) :
    firstFailure (as ++ bs) = (firstFailure as).or (firstFailure bs) :=
  List.findSome?_append

/-- A log that tells of no failure has nothing at their level. -/
theorem firstFailure_eq_none_iff {events : List Event} :
    firstFailure events = none ↔ ∀ event ∈ events, event.level ≠ .error := by
  simp only [firstFailure, List.findSome?_eq_none_iff, ne_eq, Event.level_eq_error_iff,
    Option.not_isSome_iff_eq_none]

/-- A log that tells of a failure has it at their level. -/
theorem mem_of_firstFailure {events : List Event} {error : DecodeError}
    (h : firstFailure events = some error) :
    ∃ event ∈ events, event.level = .error ∧ event.failure? = some error := by
  rcases List.exists_of_findSome?_eq_some h with ⟨event, hmem, hevent⟩
  refine ⟨event, hmem, Event.level_eq_error_iff.mpr ?_, hevent⟩
  rw [hevent]
  rfl

theorem firstFailure_failed (error : DecodeError) (events : List Event) :
    firstFailure (.failed error :: events) = some error :=
  rfl

/-! ## Logs that tell of their answer -/

/-- The log tells of no failure. -/
def Quiet (events : List Event) : Prop :=
  ∀ event ∈ events, event.level ≠ .error

/-- How an error is noted: what it is, and of a chunk that was refused also where it was. It is the
    last one of those that were handed over. -/
inductive Notes (handed : List Chunk) : DecodeError → Event → Prop
  | start (cause : IoError) : Notes handed (.start cause) (.startFailed (.start cause))
  | notReady : Notes handed .notReady .notReady
  | rejected {chunk : Chunk} {cause : IoError} (last : handed.getLast? = some chunk) :
      Notes handed (.sink cause) (.chunkRejected chunk.offset cause)
  | failed {error : DecodeError} (restarts : error.startsOver = true)
      (taken : ∀ cause, error ≠ .sink cause) : Notes handed error (.failed error)

/-- What is noted after an error: whether the decoder could be given a new session, unless the
    error is that it has none. -/
inductive Aftermath (after : Decoder c) (error : DecodeError) : List Event → Prop
  | none (stays : error.startsOver = false) : Aftermath after error []
  | started (restarts : error.startsOver = true) (ready : after.isReady = true) :
      Aftermath after error [.sessionStarted]
  | refused {cause : IoError} (restarts : error.startsOver = true)
      (unready : after.isReady = false) : Aftermath after error [.startFailed (.start cause)]

/-- The log tells of the answer: of no failure, or of this one and its aftermath. -/
inductive Told (after : Decoder c) (handed : List Chunk) :
    List Event → Except DecodeError α → Prop
  | fine {events : List Event} {value : α} (quiet : Quiet events) :
      Told after handed events (.ok value)
  | failed {early later : List Event} {noted : Event} {error : DecodeError} (quiet : Quiet early)
      (notes : Notes handed error noted) (aftermath : Aftermath after error later) :
      Told after handed (early ++ noted :: later) (.error error)

theorem quiet_nil : Quiet [] := by
  intro event hmem
  cases hmem

theorem quiet_append {as bs : List Event} : Quiet (as ++ bs) ↔ Quiet as ∧ Quiet bs := by
  simp only [Quiet, List.forall_mem_append]

theorem quiet_singleton {event : Event} (h : event.level ≠ .error) : Quiet [event] :=
  List.forall_mem_singleton.mpr h

theorem Quiet.firstFailure {events : List Event} (h : Quiet events) : firstFailure events = none :=
  firstFailure_eq_none_iff.mpr h

theorem quiet_ofChunk (last : Bool) (chunk : Chunk) : Quiet (Event.ofChunk last chunk) := by
  have hproduced : Quiet [.chunkProduced chunk.offset chunk.length] :=
    quiet_singleton Level.noConfusion
  cases last with
  | false => exact hproduced
  | true => exact quiet_append.mpr ⟨hproduced, quiet_singleton Level.noConfusion⟩

theorem quiet_entered {d entered : Decoder c} {input : Cursor} {events : List Event}
    (h : Entered d input events entered) : Quiet events := by
  cases h with
  | stay _ => exact quiet_nil
  | member _ _ _ _ => exact quiet_singleton Level.noConfusion

theorem Notes.failure {handed : List Chunk} {error : DecodeError} {event : Event}
    (h : Notes handed error event) : event.failure? = some error := by
  cases h <;> rfl

theorem Notes.level {handed : List Chunk} {error : DecodeError} {event : Event}
    (h : Notes handed error event) : event.level = .error := by
  rw [Event.level_eq_error_iff, h.failure]
  rfl

/-- A reset is what comes after a failure. -/
theorem aftermath_reset (d : Decoder c) {error : DecodeError} (h : error.startsOver = true) :
    Aftermath d.reset.decoder error d.reset.events := by
  rcases reset_cases d with ⟨s, memory, _, hreset⟩ | ⟨cause, memory, _, hreset⟩
  · rw [hreset]
    exact .started h rfl
  · rw [hreset]
    exact .refused h rfl

section Telling

variable {after : Decoder c} {handed : List Chunk} {events : List Event}
  {result : Except DecodeError α}

/-- What tells of no failure may come before. -/
theorem Told.preceded (h : Told after handed events result) {early : List Event}
    (hearly : Quiet early) : Told after handed (early ++ events) result := by
  cases h with
  | fine hquiet => exact .fine (quiet_append.mpr ⟨hearly, hquiet⟩)
  | failed hquiet hnotes haftermath =>
      rw [← List.append_assoc]
      exact .failed (quiet_append.mpr ⟨hearly, hquiet⟩) hnotes haftermath

-- What a call answers with besides an error does not matter to its log.
theorem Told.error {β : Type} (h : Told after handed events result) {error : DecodeError}
    (herror : result = .error error) :
    Told after handed events (.error error : Except DecodeError β) := by
  cases h with
  | fine _ => cases herror
  | failed hquiet hnotes haftermath =>
      cases herror
      exact .failed hquiet hnotes haftermath

theorem Told.map {β : Type} (h : Told after handed events result) (f : α → β) :
    Told after handed events (result.map f) := by
  cases h with
  | fine hquiet => exact .fine hquiet
  | failed hquiet hnotes haftermath => exact .failed hquiet hnotes haftermath

theorem Told.quiet (h : Told after handed events result) {value : α} (hvalue : result = .ok value) :
    Quiet events := by
  cases h with
  | fine hquiet => exact hquiet
  | failed _ _ _ => cases hvalue

/-- There is a failure to be told of if and only if the answer is one. -/
theorem Told.fails_iff (h : Told after handed events result) :
    (∃ error, result = .error error) ↔ ∃ event ∈ events, event.level = .error := by
  cases h with
  | fine hquiet =>
      constructor
      · rintro ⟨error, herror⟩
        cases herror
      · rintro ⟨event, hmem, hlevel⟩
        exact absurd hlevel (hquiet event hmem)
  | @failed early later noted error _ hnotes _ =>
      have hmem : noted ∈ early ++ noted :: later :=
        List.mem_append_right early List.mem_cons_self
      exact ⟨fun _ => ⟨noted, hmem, hnotes.level⟩, fun _ => ⟨error, rfl⟩⟩

/-- The first failure that is told of is the one in the answer. -/
theorem Told.firstFailure (h : Told after handed events result) :
    firstFailure events = reported result := by
  cases h with
  | fine hquiet => exact hquiet.firstFailure
  | failed hquiet hnotes _ =>
      rw [firstFailure_append, hquiet.firstFailure, Option.none_or, Decompression.firstFailure,
        List.findSome?_cons, hnotes.failure]
      rfl

/-- What was noted is told of with the decoder that was reset after it. -/
theorem told_failAfter (d : Decoder c) {early : List Event} (hearly : Quiet early) {noted : Event}
    {error : DecodeError} (hnotes : Notes handed error noted) (hover : error.startsOver = true) :
    Told d.reset.decoder handed (early ++ noted :: d.reset.events)
      (.error error : Except DecodeError α) :=
  .failed hearly hnotes (aftermath_reset d hover)

end Telling

theorem told_failed (d : Decoder c) (handed : List Chunk) {early : List Event}
    (hearly : Quiet early) {error : DecodeError} (hover : error.startsOver = true)
    (htaken : ∀ cause, error ≠ .sink cause) :
    Told d.reset.decoder handed (early ++ .failed error :: d.reset.events)
      (.error error : Except DecodeError α) :=
  told_failAfter d hearly (.failed hover htaken) hover

/-- A reset notes why it fails. -/
theorem told_reset (d : Decoder c) (handed : List Chunk) :
    Told d.reset.decoder handed d.reset.events d.reset.result := by
  rcases reset_cases d with ⟨s, memory, _, hreset⟩ | ⟨cause, memory, _, hreset⟩
  · rw [hreset]
    exact .fine (quiet_singleton Level.noConfusion)
  · rw [hreset]
    exact .failed quiet_nil (.start cause) (.none rfl)

/-- Checking that the input did not end within a stream notes a failure if it finds one. -/
theorem told_finish (d : Decoder c) (handed : List Chunk) :
    Told d.finish.decoder handed d.finish.events d.finish.result := by
  cases hpending : d.isPending with
  | true =>
      rw [finish_of_pending hpending]
      exact told_failed d handed quiet_nil rfl fun _ => DecodeError.noConfusion
  | false =>
      rw [finish_of_not_pending hpending]
      exact .fine quiet_nil

/-- Giving up a session is no failure. -/
theorem told_release (d : Decoder c) (handed : List Chunk) :
    Told d.release.decoder handed d.release.events d.release.result := by
  show Told _ _ _ (.ok ())
  refine .fine ?_
  unfold release
  by_cases hready : d.isReady = true
  · rw [if_pos hready]
    exact quiet_singleton Level.noConfusion
  · rw [if_neg hready]
    exact quiet_nil

variable {alloc : Allocator σ}

/-- An attempt notes the failure that it ends with, and an attempt that a further one follows
    notes none. -/
theorem told_attempt {w : Scene c Cursor σ} (hready : w.decoder.session ≠ none)
    {r : Round Event (Scene c Cursor σ) (Turn c Cursor σ Progress)} (h : attempt alloc w = .ok r)
    (handed : List Chunk) :
    match r with
    | .again events _ => Quiet events
    | .done events turn => Told turn.decoder handed events turn.result := by
  have hcases := attempted_of_eq hready h
  cases hcases with
  | spent _ _ => exact .fine quiet_nil
  | refused _ _ _ _ =>
      exact .failed (quiet_singleton Level.noConfusion) (.start _) (.none rfl)
  | unserved henter _ =>
      exact told_failed _ handed (quiet_entered henter) rfl fun _ => DecodeError.noConfusion
  | failed hran _ _ =>
      exact told_failed _ handed (quiet_entered hran.enter) rfl fun _ => DecodeError.noConfusion
  | starved hran _ _ _ _ => exact .fine (quiet_entered hran.enter)
  | passed hran _ _ _ _ _ => exact quiet_entered hran.enter
  | closed hran _ _ _ _ _ => exact .fine (quiet_entered hran.enter)
  | filled hran _ _ _ _ _ _ =>
      exact .fine (quiet_append.mpr ⟨quiet_entered hran.enter, quiet_ofChunk _ _⟩)

/-- A step notes the failure that it answers with before any other. -/
theorem told_step {fuel : Nat} {w : Scene c Cursor σ}
    {r : Logged Event (Turn c Cursor σ Progress)} (h : step fuel alloc w = .ok r)
    (handed : List Chunk) : Told r.result.decoder handed r.events r.result.result := by
  by_cases hready : w.decoder.session = none
  · rw [step_of_not_ready hready] at h
    cases h
    exact .failed quiet_nil .notReady (.none rfl)
  have hends := ends_of_step hready h
  clear h
  induction hends using Ends.ok_induction with
  | done hs => exact told_attempt hready hs.of_const handed
  | again hs _ ih =>
      have hround := hs.of_const
      exact (ih (attempt_ready hready hround)).preceded (told_attempt hready hround handed)

theorem firstFailure_step {fuel : Nat} {w : Scene c Cursor σ}
    {r : Logged Event (Turn c Cursor σ Progress)} (h : step fuel alloc w = .ok r) :
    firstFailure r.events = reported r.result.result :=
  (told_step h []).firstFailure

/-! ## Chunks that the log tells of -/

/-- Where a chunk lies: its offset and its length. -/
def Chunk.span (chunk : Chunk) : Nat × Nat :=
  (chunk.offset, chunk.length)

/-- The chunk that an event says was filled. -/
def Event.span? : Event → Option (Nat × Nat)
  | .chunkProduced offset length => some (offset, length)
  | _ => none

/-- The chunks that a log says were filled, in order. -/
def spans (events : List Event) : List (Nat × Nat) :=
  events.filterMap Event.span?

theorem spans_append (as bs : List Event) : spans (as ++ bs) = spans as ++ spans bs :=
  List.filterMap_append

theorem spans_reset (d : Decoder c) : spans d.reset.events = [] := by
  rcases reset_cases d with ⟨s, memory, _, hreset⟩ | ⟨cause, memory, _, hreset⟩
  · rw [hreset]
    rfl
  · rw [hreset]
    rfl

theorem spans_failed (error : DecodeError) (d : Decoder c) :
    spans (.failed error :: d.reset.events) = [] :=
  spans_reset d

theorem spans_finish (d : Decoder c) : spans d.finish.events = [] := by
  by_cases h : d.isPending = true
  · rw [finish_of_pending h]
    exact spans_failed _ d
  · rw [finish_of_not_pending (Bool.not_eq_true _ ▸ h)]
    rfl

theorem spans_release (d : Decoder c) : spans d.release.events = [] := by
  unfold release
  by_cases h : d.isReady = true
  · rw [if_pos h]
    rfl
  · rw [if_neg h]
    rfl

theorem spans_ofChunk (last : Bool) (chunk : Chunk) :
    spans (Event.ofChunk last chunk) = [chunk.span] := by
  cases last <;> rfl

theorem spans_entered {d entered : Decoder c} {input : Cursor} {events : List Event}
    (h : Entered d input events entered) : spans events = [] := by
  cases h with
  | stay _ => rfl
  | member _ _ _ _ => rfl

/-- An attempt fills the chunk that it answers with, and no other. -/
theorem spans_attempt {w : Scene c Cursor σ} (hready : w.decoder.session ≠ none)
    {r : Round Event (Scene c Cursor σ) (Turn c Cursor σ Progress)} (h : attempt alloc w = .ok r) :
    match r with
    | .again events _ => spans events = []
    | .done events turn => spans events = (answeredChunks turn.result).map Chunk.span := by
  have hcases := attempted_of_eq hready h
  cases hcases with
  | spent _ _ => rfl
  | refused _ _ _ _ => rfl
  | unserved henter _ =>
      dsimp only
      rw [spans_append, spans_entered henter, spans_failed]
      rfl
  | failed hran _ _ =>
      dsimp only
      rw [spans_append, spans_entered hran.enter, spans_failed]
      rfl
  | starved hran _ _ _ _ => exact spans_entered hran.enter
  | passed hran _ _ _ _ _ => exact spans_entered hran.enter
  | closed hran _ _ _ _ _ => exact spans_entered hran.enter
  | filled hran _ _ _ _ _ _ =>
      dsimp only
      rw [spans_append, spans_entered hran.enter, spans_ofChunk, answeredChunks_ofChunk]
      rfl

/-- A step fills the chunk that it answers with, and no other. -/
theorem spans_step {fuel : Nat} {w : Scene c Cursor σ}
    {r : Logged Event (Turn c Cursor σ Progress)} (h : step fuel alloc w = .ok r) :
    spans r.events = (answeredChunks r.result.result).map Chunk.span := by
  by_cases hready : w.decoder.session = none
  · rw [step_of_not_ready hready] at h
    cases h
    rfl
  have hends := ends_of_step hready h
  clear h
  induction hends using Ends.ok_induction with
  | done hs => exact spans_attempt hready hs.of_const
  | @again w next events r hs _ ih =>
      have hround := hs.of_const
      have hnone : spans events = [] := spans_attempt hready hround
      dsimp only
      rw [spans_append, hnone, List.nil_append]
      exact ih (attempt_ready hready hround)

end Decompression
