import Decompression.Proofs.Failure
import Decompression.Proofs.Logging
import Decompression.Proofs.Polling

/-!
# How a Decoded Stream Fails

A poll answers with a failure for one of three reasons: its source failed, its source was over
within a stream, or a step of its decoder failed. In the last two the decoder has noted the
failure and has started over, as it does when it decodes from a reader. The failure of a source
is handed on, and the decoder is not told of it: nothing is noted, and the decoder stays within
the stream that it will see no more of. A reader that fails in the same place has it noted, and
leaves a decoder that has started over.

`Moved` is the list of what a move can come to, for a stream in any state; the poll is followed
move by move to the last one, which is one of those that fail.

## Main definitions

* `Moved`: What a move of a stream comes to.
* `Decoder.Prepared`: A decoder that waits for a new stream.
* `Recovered`: A failure was noted, and the decoder has started over.
* `Falters`: Why a poll fails, and what it leaves behind.

## Theorems

* `moved_of_settles`: Every move comes to one of these.
* `Invariant.poll`: Polling keeps up what decoding does.
* `poll_falters`: A poll that fails does so for one of the three reasons.
* `source_failure_unnoted`: Nothing is noted of a source that fails, and the stream that it broke
  off is still open.
-/

namespace Decompression

open Decoder Loop DecodedStream

variable {S M : Type} {c : Codec S M}

/-! ## What a move comes to -/

/-- Everything that a move of a stream can come to. -/
inductive Moved : DecodedStream c → Move c → Prop
  -- The stream is over
  | halted {source : Source} {d : Decoder c} {input : Cursor} :
      Moved ⟨source, d, input, .done⟩ (.done [] (⟨source, d, input, .done⟩, .over))
  -- A piece of input is taken from the source
  | taken {bytes : List UInt8} {rest : List SourceItem} {polls : Nat} {d : Decoder c}
      {input : Cursor} :
      Moved ⟨⟨.data bytes :: rest, polls⟩, d, input, .reading⟩
        (.again [] ⟨⟨rest, polls + 1⟩, d, .ofBytes bytes, .decoding⟩)
  -- The source has nothing yet
  | delayed {rest : List SourceItem} {polls : Nat} {d : Decoder c} {input : Cursor} :
      Moved ⟨⟨.pending :: rest, polls⟩, d, input, .reading⟩
        (.done [] (⟨⟨rest, polls + 1⟩, d, input, .reading⟩, .pending))
  -- The source failed
  | forwarded {cause : IoError} {rest : List SourceItem} {polls : Nat} {d : Decoder c}
      {input : Cursor} :
      Moved ⟨⟨.fail cause :: rest, polls⟩, d, input, .reading⟩
        (.done [] (⟨⟨rest, polls + 1⟩, d, input, .done⟩, .fail cause))
  -- The source is over, between two streams
  | closed {polls : Nat} {d : Decoder c} {input : Cursor} (settled : d.isPending = false) :
      Moved ⟨⟨[], polls⟩, d, input, .reading⟩ (.again [] ⟨⟨[], polls + 1⟩, d, input, .done⟩)
  -- The source is over, within a stream
  | truncated {polls : Nat} {d : Decoder c} {input : Cursor} (pending : d.isPending = true) :
      Moved ⟨⟨[], polls⟩, d, input, .reading⟩
        (.done (.failed (.truncated d.outputOffset) :: d.reset.events)
          (⟨⟨[], polls + 1⟩, d.reset.decoder, input, .done⟩,
            .fail (DecodeError.truncated d.outputOffset).toIoError))
  -- The decoder takes a step
  | stepped {source : Source} {d : Decoder c} {input : Cursor} {events : List Event}
      {turn : Turn c Cursor Unit Progress}
      (step : Settles (fun fuel => d.next fuel input) (.ok ⟨events, turn⟩)) :
      Moved ⟨source, d, input, .decoding⟩ (takeStep source events turn)

theorem moved_of_readNext (source : Source) (d : Decoder c) (input : Cursor) :
    Moved ⟨source, d, input, .reading⟩ (readNext ⟨source, d, input, .reading⟩) := by
  rcases source with ⟨_ | ⟨bytes | cause | _, rest⟩, polls⟩
  · cases hpending : d.isPending with
    | false =>
        simp only [readNext, Source.poll, finish_of_not_pending hpending]
        exact .closed hpending
    | true =>
        simp only [readNext, Source.poll, finish_of_pending hpending]
        exact .truncated hpending
  · exact .taken
  · exact .forwarded
  · exact .delayed

theorem moved_of_settles {s : DecodedStream c} {move : Move c}
    (h : Settles (fun fuel => pollRound fuel s) (.ok move)) : Moved s move := by
  rcases s with ⟨source, d, input, phase⟩
  cases phase with
  | reading =>
      cases (settles_reading source d input).unique h
      exact moved_of_readNext source d input
  | decoding =>
      rcases settles_decoding_iff.mp h with ⟨events, d', input', result, hstep, rfl⟩
      exact .stepped hstep
  | done =>
      cases h.of_const
      exact .halted

theorem takeStep_decoder {I : Decoder c → Prop} (source : Source) (events : List Event)
    {turn : Turn c Cursor Unit Progress} (h : I turn.decoder) :
    (takeStep source events turn).All (fun s => I s.decoder) fun result => I result.1.decoder := by
  rcases turn with ⟨⟨d, input, _⟩, error | chunk | (_ | chunk) | _⟩ <;> exact h

/-- Polling keeps up what decoding does. -/
theorem Invariant.poll {I : Decoder c → Prop} (h : Invariant I) {s : DecodedStream c}
    (hs : I s.decoder) {fuel : Nat} {r : Logged Event (DecodedStream c × Polled)}
    (hr : s.poll fuel = .ok r) : I r.result.1.decoder := by
  refine run_all (I := fun s => I s.decoder)
    (Q := fun result : DecodedStream c × Polled => I result.1.decoder)
    (fun s move hs hround => ?_) hs hr
  have hmoved := moved_of_settles ((stable_pollRound s).settles hround (ok_ne_outOfFuel move))
  cases hmoved with
  | halted => exact hs
  | taken => exact hs
  | delayed => exact hs
  | forwarded => exact hs
  | closed _ => exact hs
  | truncated _ => exact h.reset hs
  | stepped hstep =>
      rcases hstep.exists_fuel with ⟨fuel', hfuel⟩
      exact takeStep_decoder _ _ (h.kept.step hs hfuel)

/-! ## What a poll notes -/

theorem takeStep_again {source : Source} {events events' : List Event}
    {turn : Turn c Cursor Unit Progress} {next : DecodedStream c}
    (h : takeStep source events turn = .again events' next) :
    events' = events ∧ reported turn.result = none := by
  rcases turn with ⟨⟨d, input, _⟩, error | chunk | (_ | chunk) | _⟩ <;> cases h <;> exact ⟨rfl, rfl⟩

theorem takeStep_fail {source : Source} {events events' : List Event}
    {turn : Turn c Cursor Unit Progress} {s : DecodedStream c} {cause : IoError}
    (h : takeStep source events turn = .done events' (s, .fail cause)) :
    events' = events ∧ s.decoder = turn.decoder ∧
      ∃ error, turn.result = .error error ∧ cause = error.toIoError := by
  rcases turn with ⟨⟨d, input, _⟩, error | chunk | (_ | chunk) | _⟩ <;> cases h
  exact ⟨rfl, rfl, error, rfl, rfl⟩

/-- A move that another one follows notes no failure. -/
theorem firstFailure_moved {s next : DecodedStream c} {events : List Event}
    (h : Moved s (.again events next)) : firstFailure events = none := by
  generalize hmove : Round.again events next = move at h
  cases h with
  | taken => cases hmove; rfl
  | closed _ => cases hmove; rfl
  | stepped hstep =>
      rcases hstep.exists_fuel with ⟨fuel, hfuel⟩
      rcases takeStep_again hmove.symm with ⟨rfl, hquiet⟩
      exact (firstFailure_step hfuel).trans hquiet
  | halted => cases hmove
  | delayed => cases hmove
  | forwarded => cases hmove
  | truncated _ => cases hmove

/-- On the way to an answer no failure is noted. -/
theorem firstFailure_leads {s w : DecodedStream c} {events : List Event}
    (h : Leads pollRound s events w) : firstFailure events = none := by
  induction h with
  | here => rfl
  | again hround _ ih =>
      rw [firstFailure_append, firstFailure_moved (moved_of_settles hround), ih]
      rfl

/-! ## Why a poll fails -/

/-- The decoder waits for a new stream. -/
structure Decoder.Prepared (d : Decoder c) : Prop where
  ready : d.isReady = true
  offset : d.outputOffset = 0
  finished : d.finished = false
  finish : d.finish.result = .ok ()

theorem created_prepared {memory memory' : M} {s : S} (size : BufferSize) (multiple : Bool)
    (h : c.start memory = (.ok s, memory')) : (created c memory size multiple).Prepared := by
  have hidle : (idle c memory).retire = memory := rfl
  unfold created create
  rw [reset_of_ok (hidle.symm ▸ h)]
  exact ⟨rfl, rfl, rfl, rfl⟩

/-- The failure was noted, and unless a session was missing or could not be started, the decoder
    has started over: it is a new one with the settings of `d`, and if it could be given a session
    then it waits for a new stream. -/
structure Recovered (d : Decoder c) (events : List Event) (error : DecodeError)
    (after : Decoder c) : Prop where
  noted : ∃ event ∈ events, event.level = .error ∧ event.failure? = some error
  afresh : error.startsOver = true →
    ∃ memory, after = created c memory d.bufferSize d.multipleMembers ∧
      ∀ s memory', c.start memory = (.ok s, memory') → after.Prepared

/-- Why a poll of a stream fails, and what it leaves behind. -/
inductive Falters (s : DecodedStream c) (r : Logged Event (DecodedStream c × Polled)) :
    IoError → Prop
  -- The source failed: nothing is noted, and the decoder stays as it is
  | forwarded {earlier : List Event} {w : DecodedStream c} {cause : IoError}
      {rest : List SourceItem} (leads : Leads pollRound s earlier w) (phase : w.phase = .reading)
      (item : w.source.items = .fail cause :: rest) (decoder : r.result.1.decoder = w.decoder)
      (quiet : ∀ event ∈ r.events, event.level ≠ .error) : Falters s r cause
  -- The source is over within a stream
  | truncated {earlier : List Event} {w : DecodedStream c} (leads : Leads pollRound s earlier w)
      (phase : w.phase = .reading) (exhausted : w.source.items = [])
      (pending : w.decoder.isPending = true)
      (recovered : Recovered s.decoder r.events (.truncated w.decoder.outputOffset)
        r.result.1.decoder) :
      Falters s r (DecodeError.truncated w.decoder.outputOffset).toIoError
  -- A step of the decoder failed
  | stepped {earlier events : List Event} {w : DecodedStream c}
      {turn : Turn c Cursor Unit Progress} {error : DecodeError}
      (leads : Leads pollRound s earlier w) (phase : w.phase = .decoding)
      (step : Settles (fun fuel => w.decoder.next fuel w.input) (.ok ⟨events, turn⟩))
      (result : turn.result = .error error)
      (recovered : Recovered s.decoder r.events error r.result.1.decoder) :
      Falters s r error.toIoError

/-- A step that fails and starts over leaves a decoder that has just been reset. -/
theorem reset_of_next {d : Decoder c} {input : Cursor} {fuel : Nat} {events : List Event}
    {turn : Turn c Cursor Unit Progress} (h : d.next fuel input = .ok ⟨events, turn⟩)
    {error : DecodeError} (herror : turn.result = .error error) (hover : error.startsOver = true) :
    ∃ e : Decoder c, turn.decoder = e.reset.decoder := by
  have hreport : (Call.next input : Call (Array Chunk)).report fuel d =
      .ok ⟨.ofStep d ⟨events, turn⟩, turn.result.map .progress, .cursor turn.input, none⟩ := by
    rw [Call.report, h]
    rfl
  have hanswer : turn.result.map Returned.progress = .error error := by
    rw [herror]
    rfl
  exact (failed_of_report hreport hanswer).2 hover

theorem recovered_of_reset {d : Decoder c} {events : List Event} {error : DecodeError}
    {after : Decoder c} (hnoted : firstFailure events = some error)
    (hreset : error.startsOver = true → ∃ e : Decoder c, after = e.reset.decoder)
    (hsettings : after.bufferSize = d.bufferSize ∧ after.multipleMembers = d.multipleMembers) :
    Recovered d events error after where
  noted := mem_of_firstFailure hnoted
  afresh hover := by
    rcases hreset hover with ⟨e, he⟩
    rcases afresh_of_reset he hsettings with ⟨memory, hafter⟩
    exact ⟨memory, hafter, fun s memory' hstart => hafter ▸ created_prepared _ _ hstart⟩

/-- A poll that fails hands on the failure of its source, of which nothing is noted and the
    decoder is not told, or it fails because its decoder does, which has noted the failure and
    started over. -/
theorem poll_falters {s : DecodedStream c} {fuel : Nat}
    {r : Logged Event (DecodedStream c × Polled)} (h : s.poll fuel = .ok r) {cause : IoError}
    (hfail : r.result.2 = .fail cause) : Falters s r cause := by
  have hends : Ends pollRound s (.ok r) := ends_of_run stable_pollRound fuel h (ok_ne_outOfFuel r)
  rcases hends.last with ⟨earlier, w, events, hleads, hlast, hevents⟩
  have hsettings := (settings_kept s.decoder).poll ⟨rfl, rfl⟩ h
  have hfirst : firstFailure r.events = firstFailure events := by
    rw [hevents, firstFailure_append, firstFailure_leads hleads, Option.none_or]
  rcases r with ⟨noted, ⟨last, polled⟩⟩
  dsimp only at hfail hsettings hfirst hlast
  subst hfail
  have hmoved := moved_of_settles hlast
  generalize hmove : Round.done events (last, Polled.fail cause) = move at hmoved
  cases hmoved with
  | forwarded =>
      cases hmove
      exact .forwarded hleads rfl rfl rfl (firstFailure_eq_none_iff.mp hfirst)
  | @truncated polls d input hpending =>
      cases hmove
      have hrecovered := recovered_of_reset (hfirst.trans (firstFailure_failed _ _))
        (fun _ => ⟨d, rfl⟩) hsettings
      exact .truncated (w := ⟨⟨[], polls⟩, d, input, .reading⟩) hleads rfl rfl hpending hrecovered
  | stepped hstep =>
      rcases hstep.exists_fuel with ⟨fuel', hfuel⟩
      rcases takeStep_fail hmove.symm with ⟨rfl, hdecoder, error, herror, rfl⟩
      refine .stepped hleads rfl hstep herror (recovered_of_reset ?_ (fun hover => ?_) hsettings)
      · rw [hfirst, firstFailure_step hfuel, herror]
        rfl
      · rcases reset_of_next hfuel herror hover with ⟨e, he⟩
        exact ⟨e, hdecoder.trans he⟩
  | halted => cases hmove
  | taken => cases hmove
  | delayed => cases hmove
  | closed _ => cases hmove

/-- A source that is over after two bytes of a stream. -/
theorem poll_falters_copier : ∃ r r' : Logged Event (DecodedStream copier × Polled),
    (ofSource (.ofItems [.data [5, 6]]) (created copier () ⟨2, by decide⟩ false)).poll 9 = .ok r ∧
    r.result.1.poll 9 = .ok r' ∧ r'.result.2 = .fail (DecodeError.truncated 2).toIoError ∧
    Falters r.result.1 r' (DecodeError.truncated 2).toIoError := by
  have hpolls : ∃ r r' : Logged Event (DecodedStream copier × Polled),
      (ofSource (.ofItems [.data [5, 6]]) (created copier () ⟨2, by decide⟩ false)).poll 9 =
        .ok r ∧
      r.result.1.poll 9 = .ok r' ∧ r'.result.2 = .fail (DecodeError.truncated 2).toIoError :=
    ⟨_, _, rfl, rfl, rfl⟩
  rcases hpolls with ⟨r, r', hr, hr', hfail⟩
  exact ⟨r, r', hr, hr', hfail, poll_falters hr' hfail⟩

/-- A source that fails after two bytes of a stream. The failure is handed on, but nothing is noted
    of it, and the stream is left open. A reader that fails there has its failure noted, and leaves
    a decoder that waits for a new stream. -/
theorem source_failure_unnoted :
    (∃ r r' : Logged Event (DecodedStream copier × Polled),
      (ofSource (.ofItems [.data [5, 6], .fail ⟨.other, "gone"⟩])
        (created copier () ⟨2, by decide⟩ false)).poll 9 = .ok r ∧
      r.result.1.poll 9 = .ok r' ∧ r'.result.2 = .fail ⟨.other, "gone"⟩ ∧ r'.events = [] ∧
      r'.result.1.decoder.outputOffset = 2 ∧
      r'.result.1.decoder.finish.result = .error (.truncated 2)) ∧
    ∃ q : Logged Event (Turn copier Reader (Array Chunk) Unit),
      (created copier () ⟨2, by decide⟩ false).readAll 9
        ⟨[.data [5, 6], .fail ⟨.other, "gone"⟩]⟩ #[] = .ok q ∧
      q.result.result = .error (.input ⟨.other, "gone"⟩) ∧
      .failed (.input ⟨.other, "gone"⟩) ∈ q.events ∧ q.result.decoder.Prepared := by
  refine ⟨⟨_, _, rfl, rfl, rfl, rfl, rfl, rfl⟩, ⟨_, rfl, rfl, ?_, ⟨rfl, rfl, rfl, rfl⟩⟩⟩
  exact List.mem_of_elem_eq_true rfl

end Decompression
