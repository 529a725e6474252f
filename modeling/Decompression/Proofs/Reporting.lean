import Decompression.Proofs.Copier
import Decompression.Proofs.Failure
import Decompression.Proofs.Logging

/-!
# The Log of a Call

A call goes through many hands, and each of them notes what happens to it. What the log of a
whole call tells is nevertheless simple. If the call fails, the first failure in the log is
the one it answers with, and after it comes only whether there is a session again; if it
does not fail, the log tells of no failure. And the chunks that the log tells of are those
that were handed over, one by one, taken or not.

Rounds are put together in one way, whatever they are rounds of: what comes before the last
one tells of no failure, and of the chunks that it has handed over. `Attests` says this of a
round, and `attested_of_ends` of a loop.

## Main definitions

* `Attests`: The log of a round tells of its answer and of its chunks.
* `Accurate`: What holds of the log of a call.

## Theorems

* `attests_takeProgress`, `attests_readRound`: Rounds of a push, and of decoding from a reader.
* `attested_of_ends`: Loops.
* `log_accurate`: The log of every call.
-/

namespace Decompression

open Decoder Loop

variable {S M : Type} {c : Codec S M} {σ : Type} [Sink σ]

/-! ## Rounds -/

section Rounds

variable {ι α : Type}

/-- The log of a round tells of the chunks that it adds to those handed over before, and of the
    failure that it ends with, if it is the last. -/
def Attests (before : List Chunk) :
    Round Event (Scene c ι (Recorder σ)) (Turn c ι (Recorder σ) α) → Prop
  | .again events next =>
    Quiet events ∧ next.sink.handed.map Chunk.span = before.map Chunk.span ++ spans events
  | .done events turn => Told turn.decoder turn.sink.handed events turn.result ∧
    turn.sink.handed.map Chunk.span = before.map Chunk.span ++ spans events

omit [Sink σ] in
/-- What the rounds of a loop attest is attested by the whole of it. -/
theorem attested_of_ends {round : Nat → Scene c ι (Recorder σ) →
      Except Fault (Round Event (Scene c ι (Recorder σ)) (Turn c ι (Recorder σ) α))}
    (hround : ∀ {fuel w r}, round fuel w = .ok r → Attests w.sink.handed r)
    {w : Scene c ι (Recorder σ)} {r : Logged Event (Turn c ι (Recorder σ) α)}
    (h : Ends round w (.ok r)) : Attests w.sink.handed (.done r.events r.result) := by
  induction h using Ends.ok_induction with
  | done hs =>
      rcases hs.exists_fuel with ⟨fuel, hfuel⟩
      exact hround hfuel
  | again hs _ ih =>
      rcases hs.exists_fuel with ⟨fuel, hfuel⟩
      rcases hround hfuel with ⟨hquiet, hnext⟩
      rcases ih with ⟨htold, hhanded⟩
      refine ⟨htold.preceded hquiet, ?_⟩
      rw [hhanded, hnext, spans_append, List.append_assoc]

-- A chunk that is handed over is one that the log tells of.
theorem attests_deliverThen (last : Bool) {events : List Event} (hquiet : Quiet events)
    {chunk : Chunk} (hspans : spans events = [chunk.span]) (w : Scene c Cursor (Recorder σ)) :
    Attests w.sink.handed (deliverThen last events chunk w) := by
  rcases w with ⟨d, input, sink⟩
  have hadded : ∀ {sink' : Recorder σ}, sink'.handed = sink.handed ++ [chunk] →
      sink'.handed.map Chunk.span = sink.handed.map Chunk.span ++ [chunk.span] := by
    intro sink' hsink
    rw [hsink, List.map_append]
    rfl
  rcases hpush : Sink.push sink chunk with ⟨cause | _, sink'⟩
  · rw [deliverThen_of_error hpush]
    have hhanded := Recorder.handed_push hpush
    refine ⟨told_failAfter d hquiet (.rejected ?_) rfl, ?_⟩
    · rw [hhanded, List.getLast?_concat]
    · have hnothing : spans (.chunkRejected chunk.offset cause :: d.reset.events) = [] :=
        spans_reset d
      rw [spans_append, hspans, hnothing, List.append_nil]
      exact hadded hhanded
  · rw [deliverThen_of_ok hpush]
    have hmore := hadded (Recorder.handed_push hpush)
    rw [← hspans] at hmore
    cases last with
    | false => exact ⟨hquiet, hmore⟩
    | true => exact ⟨.fine hquiet, hmore⟩

/-- What the log of a step tells is what the round of a push that follows from it attests. -/
theorem attests_takeProgress {events : List Event} {turn : Turn c Cursor (Recorder σ) Progress}
    (htold : Told turn.decoder turn.sink.handed events turn.result)
    (hspans : spans events = (answeredChunks turn.result).map Chunk.span) :
    Attests turn.sink.handed (takeProgress events turn) := by
  have hnone : ∀ {events : List Event}, spans events = [] →
      turn.sink.handed.map Chunk.span = turn.sink.handed.map Chunk.span ++ spans events := by
    intro events hspans
    rw [hspans, List.append_nil]
  rcases turn with ⟨w, error | chunk | last | _⟩
  · exact ⟨htold.error rfl, hnone hspans⟩
  · exact attests_deliverThen false (htold.quiet rfl) hspans w
  · cases last with
    | none => exact ⟨.fine (htold.quiet rfl), hnone hspans⟩
    | some chunk => exact attests_deliverThen true (htold.quiet rfl) hspans w
  · exact ⟨.fine (htold.quiet rfl), hnone hspans⟩

theorem attests_pushRound {fuel : Nat} {w : Scene c Cursor (Recorder σ)}
    {r : PushRound c (Recorder σ)} (h : pushRound fuel w = .ok r) : Attests w.sink.handed r := by
  rw [pushRound_eq] at h
  rcases map_eq_ok h with ⟨q, hstep, rfl⟩
  rw [← handed_step hstep]
  exact attests_takeProgress (told_step hstep _) (spans_step hstep)

/-- The log of a push tells of its answer and of its chunks. -/
theorem attests_push {fuel : Nat} {w : Scene c Cursor (Recorder σ)}
    {r : Logged Event (Turn c Cursor (Recorder σ) Bool)} (h : pushCursor fuel w = .ok r) :
    Attests w.sink.handed (.done r.events r.result) :=
  attested_of_ends attests_pushRound (ends_of_run stable_pushRound fuel h (ok_ne_outOfFuel r))

theorem attests_readRound {fuel : Nat} {w : Scene c Reader (Recorder σ)}
    {r : ReadRound c (Recorder σ)} (h : readRound fuel w = .ok r) : Attests w.sink.handed r := by
  have hpulled := pulled_of_readRound h
  cases hpulled with
  | interrupted _ _ => exact ⟨quiet_nil, (List.append_nil _).symm⟩
  | @failed d _ _ sink cause _ _ =>
      refine ⟨told_failed d sink.handed quiet_nil rfl fun _ => DecodeError.noConfusion, ?_⟩
      rw [spans_failed, List.append_nil]
  | @exhausted d _ sink _ =>
      refine ⟨told_finish d sink.handed, ?_⟩
      rw [spans_finish, List.append_nil]
  | broken _ _ hpush hresult =>
      rcases attests_push hpush with ⟨htold, hhanded⟩
      exact ⟨htold.error hresult, hhanded⟩
  | ended _ _ hpush hresult _ =>
      rcases attests_push hpush with ⟨htold, hhanded⟩
      exact ⟨.fine (htold.quiet hresult), hhanded⟩
  | onward _ _ hpush hresult _ =>
      rcases attests_push hpush with ⟨htold, hhanded⟩
      exact ⟨htold.quiet hresult, hhanded⟩

end Rounds

/-! ## Calls -/

section Calls

omit [Sink σ]

/-- The log of a call is accurate. -/
structure Accurate (r : Report c σ) : Prop where
  -- No failure is silent, and there is no false alarm
  fails : (∃ error, r.answer = .error error) ↔ ∃ event ∈ r.events, event.level = .error
  -- The first failure noted is the one in the answer, and it is the last event but for what became
  -- of the attempt to start over
  first : ∀ {error : DecodeError}, r.answer = .error error →
    ∃ early noted later, r.events = early ++ noted :: later ∧ Quiet early ∧
      noted.level = .error ∧ Notes r.chunks error noted ∧
      (error.startsOver = false → later = []) ∧
      (error.startsOver = true → ∃ event, later = [event] ∧
        (r.after.isReady = true →
          event.level = .debug ∧ event.message = "decompression session started") ∧
        (r.after.isReady = false →
          event.level = .error ∧ event.message = "failed to start decompression"))
  -- The chunks noted are those handed over
  chunks : spans r.events = r.chunks.map Chunk.span

/-- What comes after a failure, in the words of the log. -/
theorem aftermath_said {after : Decoder c} {error : DecodeError} {later : List Event}
    (h : Aftermath after error later) :
    (error.startsOver = false → later = []) ∧
      (error.startsOver = true → ∃ event, later = [event] ∧
        (after.isReady = true →
          event.level = .debug ∧ event.message = "decompression session started") ∧
        (after.isReady = false →
          event.level = .error ∧ event.message = "failed to start decompression")) := by
  cases h with
  | none hstays =>
      refine ⟨fun _ => rfl, fun hover => ?_⟩
      rw [hstays] at hover
      cases hover
  | started hover hready =>
      constructor
      · rw [hover]
        exact Bool.noConfusion
      · refine fun _ => ⟨_, rfl, fun _ => ⟨rfl, rfl⟩, ?_⟩
        rw [hready]
        exact Bool.noConfusion
  | refused hover hunready =>
      constructor
      · rw [hover]
        exact Bool.noConfusion
      · refine fun _ => ⟨_, rfl, ?_, fun _ => ⟨rfl, rfl⟩⟩
        rw [hunready]
        exact Bool.noConfusion

/-- A report is accurate if its log tells of its answer and of its chunks. -/
theorem accurate_of_told {r : Report c σ} (htold : Told r.after r.chunks r.events r.answer)
    (hspans : spans r.events = r.chunks.map Chunk.span) : Accurate r where
  fails := htold.fails_iff
  first herror := by
    rcases r with ⟨⟨before, after, events, chunks, startsOver⟩, answer, left, sink⟩
    cases htold with
    | fine _ => cases herror
    | failed hquiet hnotes haftermath =>
        cases herror
        exact ⟨_, _, _, rfl, hquiet, hnotes.level, hnotes, aftermath_said haftermath⟩
  chunks := hspans

end Calls

/-- The log of every call is accurate. -/
theorem log_accurate {fuel : Nat} {d : Decoder c} {call : Call σ} {r : Report c σ}
    (h : call.report fuel d = .ok r) : Accurate r := by
  cases call with
  | push input sink =>
      rcases map_eq_ok h with ⟨q, hpush, rfl⟩
      rcases attests_push hpush with ⟨htold, hhanded⟩
      exact accurate_of_told (htold.map _) hhanded.symm
  | next input =>
      rcases map_eq_ok h with ⟨q, hnext, rfl⟩
      exact accurate_of_told ((told_step hnext _).map _) (spans_step hnext)
  | readAll reader sink =>
      rcases map_eq_ok h with ⟨q, hread, rfl⟩
      have hends : Ends readRound ⟨d, reader, Recorder.ofSink sink⟩ (.ok q) :=
        ends_of_run stable_readRound fuel hread (ok_ne_outOfFuel q)
      rcases attested_of_ends attests_readRound hends with ⟨htold, hhanded⟩
      exact accurate_of_told (htold.map _) hhanded.symm
  | finish =>
      cases h
      exact accurate_of_told ((told_finish d _).map _) (spans_finish d)
  | reset =>
      cases h
      exact accurate_of_told ((told_reset d _).map _) (spans_reset d)
  | release =>
      cases h
      have htold := (told_release d []).map fun _ => Returned.done
      exact accurate_of_told htold (spans_release d)
  | setBufferSize size =>
      cases h
      exact accurate_of_told (.fine quiet_nil) rfl
  | setMultipleMembers multiple =>
      cases h
      exact accurate_of_told (.fine quiet_nil) rfl

/-- A reader fails within a stream, and there is no further session to be had: the chunk that was
    handed over, the failure, and the one that follows from it. -/
theorem log_accurate_rationed :
    ∃ r : Report copier.rationed (Array Chunk),
      (Call.readAll ⟨[.data [5], .fail ⟨.other, "gone"⟩]⟩ #[]).report 9
        (created copier.rationed ((), 1) ⟨2, by decide⟩ false) = .ok r ∧
      r.events = [.chunkProduced 0 1, .failed (.input ⟨.other, "gone"⟩),
        .startFailed (.start ⟨.other, "no more sessions"⟩)] ∧
      r.after.isReady = false ∧ Accurate r := by
  have hreturns : ∃ r : Report copier.rationed (Array Chunk),
      (Call.readAll ⟨[.data [5], .fail ⟨.other, "gone"⟩]⟩ #[]).report 9
        (created copier.rationed ((), 1) ⟨2, by decide⟩ false) = .ok r ∧
      r.events = [.chunkProduced 0 1, .failed (.input ⟨.other, "gone"⟩),
        .startFailed (.start ⟨.other, "no more sessions"⟩)] ∧
      r.after.isReady = false := ⟨_, rfl, rfl, rfl⟩
  rcases hreturns with ⟨r, hr, hevents, hready⟩
  exact ⟨r, hr, hevents, hready, log_accurate hr⟩

end Decompression
