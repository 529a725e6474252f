import Decompression.Proofs.Chronicle
import Decompression.Proofs.Failure

/-!
# Truncated Streams

When the input is over, `finish` says whether a stream was cut off. It has nothing to go by
but two flags and an offset. The flags say what the live session has done (`Flagged`), and
the offset says how much has been handed out since the decoder was last reset, which is
counted here call by call. So `finish` fails exactly if the live session has read something
and has not met its end, and with the offset that the caller has seen.

A failing `finish` resets the decoder, and whether a session can be started or not, the flags
are cleared; nothing can be truncated right after that.

## Main definitions

* `final`: The decoder that a history leads to.
* `handedSince`: How many bytes were handed out since a decoder was last reset.
* `Midway`: A session that has read something and has not met its end.
* `FinishesRight`: What `finish` has to say of such a session, and of any other.

## Theorems

* `offset_of_report`: A call moves a decoder on by what it hands out, or back to zero.
* `offset_of_history`: The offset is what was handed out since the last reset.
* `truncation_exact`: A decoder finishes with a truncated stream exactly if it is in one.
-/

namespace Decompression

open Decoder Loop

variable {S M : Type} {c : Codec S M}

/-! ## The offset of a call -/

section Offsets

-- Whether a session can be started or not.
theorem reset_offset (d : Decoder c) : d.reset.decoder.outputOffset = 0 := by
  rcases reset_cases d with ⟨s, memory, _, hreset⟩ | ⟨cause, memory, _, hreset⟩
  · rw [hreset]
    rfl
  · rw [hreset]
    rfl

theorem created_offset (memory : M) (size : BufferSize) (multiple : Bool) :
    (created c memory size multiple).outputOffset = 0 :=
  reset_offset (idle c memory)

/-- A step that does not fail moves the decoder on by the chunk that it answers with. -/
theorem offset_of_step {σ : Type} {alloc : Allocator σ} {fuel : Nat} {w : Scene c Cursor σ}
    {q : Logged Event (Turn c Cursor σ Progress)} (h : step fuel alloc w = .ok q)
    {progress : Progress} (hresult : q.result.result = .ok progress) :
    q.result.decoder.outputOffset =
      w.decoder.outputOffset + (progress.chunks.flatMap Chunk.data).length := by
  by_cases hready : w.decoder.session = none
  · rw [step_of_not_ready hready] at h
    cases h
    cases hresult
  rcases (ends_of_step hready h).last with ⟨earlier, w', events, hleads, hlast, _⟩
  rcases level_of_attempts hleads hready with ⟨hready', hlevel⟩
  rcases q with ⟨noted, turn⟩
  dsimp only at hresult hlast ⊢
  have hcases := attempted_of_eq hready' hlast.of_const
  cases hcases with
  | spent _ _ => cases hresult; exact hlevel
  | refused _ _ _ _ => cases hresult
  | unserved _ _ => cases hresult
  | failed _ _ _ => cases hresult
  | starved hran _ _ _ _ => cases hresult; exact (entered_config hran.enter).1.trans hlevel
  | closed hran _ _ _ _ _ => cases hresult; exact (entered_config hran.enter).1.trans hlevel
  | @filled _ entered _ _ _ stepped status hran _ _ _ _ _ _ =>
      cases hresult
      have hchunks := answeredChunks_ofChunk (entered.isLast stepped.input status)
        ⟨entered.outputOffset, stepped.output.front⟩
      dsimp only [answeredChunks] at hchunks
      rw [hchunks, List.flatMap_singleton, ← hlevel, ← (entered_config hran.enter).1]

variable {σ : Type} [Sink σ]

/-- So does a reading that does not fail. -/
theorem offset_of_readAll {d : Decoder c} {fuel : Nat} {reader : Reader} {sink : σ}
    {q : Logged Event (Turn c Reader (Recorder σ) Unit)}
    (h : d.readAll fuel reader (Recorder.ofSink sink) = .ok q)
    (hresult : q.result.result = .ok ()) :
    q.result.decoder.outputOffset = d.outputOffset + q.result.sink.bytes.length := by
  have hends : Ends readRound ⟨d, reader, Recorder.ofSink sink⟩ (.ok q) :=
    ends_of_run stable_readRound fuel h (ok_ne_outOfFuel q)
  rcases hends.last with ⟨earlier, w, events, hleads, hlast, _⟩
  have hw := stands_of_leads hleads
  rcases hlast.exists_fuel with ⟨rounds, hround⟩
  rcases q with ⟨noted, turn⟩
  dsimp only at hresult hround ⊢
  have hpulled := pulled_of_readRound hround
  cases hpulled with
  | failed _ _ => cases hresult
  | @exhausted e _ _ _ =>
      cases hpending : e.isPending with
      | false =>
          rw [finish_of_not_pending hpending]
          exact hw.granted.2
      | true =>
          rw [finish_of_pending hpending] at hresult
          cases hresult
  | broken _ _ _ _ => cases hresult
  | @ended e _ recorder buffer p hfill hmore hpush hended hsingle =>
      rcases hw with hwaits | halong
      · cases hwaits.push hpush
        cases hended
      · exact (along_of_push (w := ⟨e, .ofBytes buffer, recorder⟩) hpush hended halong).offset

-- A sink that refuses something ends the stream.
theorem Refused.startsOver {error : DecodeError} {calls : List SinkCall}
    (h : Refused error calls) : error.startsOver = true := by
  cases h with
  | @last _ call _ hrefusal =>
      rcases call with ⟨_, size, cause | buffer⟩ | ⟨_, cause | taken⟩
      · cases hrefusal
        rfl
      · by_cases hsize : buffer.length = size
        · rw [SinkCall.refusal?, if_pos hsize] at hrefusal
          cases hrefusal
        · rw [SinkCall.refusal?, if_neg hsize] at hrefusal
          cases hrefusal
          rfl
      · cases hrefusal
        rfl
      · cases hrefusal

/-- Apart from a reset, a call starts over if it answers with an error that makes it do so. -/
theorem startsOver_of_report {fuel : Nat} {d : Decoder c} {call : Call σ} {r : Report c σ}
    (h : call.report fuel d = .ok r) (hreset : call ≠ .reset) :
    r.startsOver = startedOver r.answer := by
  cases call with
  | push input sink => rcases map_eq_ok h with ⟨q, _, rfl⟩; exact (startedOver_map _ _).symm
  | next input => rcases map_eq_ok h with ⟨q, _, rfl⟩; exact (startedOver_map _ _).symm
  | readAll reader sink => rcases map_eq_ok h with ⟨q, _, rfl⟩; exact (startedOver_map _ _).symm
  | finish => cases h; exact (startedOver_map _ _).symm
  | reset => exact absurd rfl hreset
  | release => cases h; rfl
  | setBufferSize size => cases h; rfl
  | setMultipleMembers multiple => cases h; rfl

/-- A call that leaves its sink alone hands out nothing if it fails. -/
theorem length_of_untouched {fuel : Nat} {d : Decoder c} {call : Call σ} {r : Report c σ}
    (h : call.report fuel d = .ok r) {error : DecodeError} (herror : r.answer = .error error)
    (huntouched : (r.left, r.sink) = call.untouched) : r.length = 0 := by
  cases call with
  | push input sink =>
      rcases map_eq_ok h with ⟨q, _, rfl⟩
      have hsink : q.result.sink = Recorder.ofSink sink :=
        Option.some.inj (Prod.mk.inj huntouched).2
      rw [Report.length, Record.ofTurn, hsink]
      rfl
  | next input =>
      rcases map_eq_ok h with ⟨q, _, rfl⟩
      rw [Report.length, Record.ofStep, map_eq_error herror]
      rfl
  | readAll reader sink =>
      rcases map_eq_ok h with ⟨q, _, rfl⟩
      have hsink : q.result.sink = Recorder.ofSink sink :=
        Option.some.inj (Prod.mk.inj huntouched).2
      rw [Report.length, Record.ofTurn, hsink]
      rfl
  | finish => cases h; rfl
  | reset => cases h; rfl
  | release => cases h; rfl
  | setBufferSize size => cases h; rfl
  | setMultipleMembers multiple => cases h; rfl

theorem offset_of_answer {fuel : Nat} {d : Decoder c} {call : Call σ} {r : Report c σ}
    (h : call.report fuel d = .ok r) (hreset : call ≠ .reset) {returned : Returned}
    (hanswer : r.answer = .ok returned) : r.after.outputOffset = d.outputOffset + r.length := by
  cases call with
  | push input sink =>
      rcases map_eq_ok h with ⟨q, hpush, rfl⟩
      rcases map_eq_ok hanswer with ⟨ended, hresult, _⟩
      have hready : d.session ≠ none := ready_of_push hpush hresult
      exact (along_of_push hpush hresult (along_ofSink hready sink)).offset
  | next input =>
      rcases map_eq_ok h with ⟨q, hnext, rfl⟩
      rcases map_eq_ok hanswer with ⟨progress, hresult, _⟩
      rw [Report.length, Record.ofStep, hresult]
      exact offset_of_step hnext hresult
  | readAll reader sink =>
      rcases map_eq_ok h with ⟨q, hread, rfl⟩
      rcases map_eq_ok hanswer with ⟨_, hresult, _⟩
      exact offset_of_readAll hread hresult
  | finish =>
      cases h
      cases hpending : d.isPending with
      | false =>
          rw [finish_of_not_pending hpending]
          rfl
      | true =>
          rw [finish_of_pending hpending] at hanswer
          cases hanswer
  | reset => exact absurd rfl hreset
  | release =>
      cases h
      change d.endSession.outputOffset = _
      rw [endSession_eq]
      rfl
  | setBufferSize size => cases h; rfl
  | setMultipleMembers multiple => cases h; rfl

theorem offset_of_error {fuel : Nat} {d : Decoder c} {call : Call σ} {r : Report c σ}
    (h : call.report fuel d = .ok r) (hreset : call ≠ .reset) {error : DecodeError}
    (herror : r.answer = .error error) (hover : error.startsOver = false) :
    r.after.outputOffset = d.outputOffset + r.length := by
  have hfailed := (failed_of_report h herror).1
  cases hfailed with
  | notReady _ hafter huntouched =>
      rw [hafter, length_of_untouched h herror huntouched, Nat.add_zero]
  | unstarted hcall _ _ => exact absurd hcall hreset
  | refused _ _ _ _ _ _ hlost => exact hlost.offset
  | @decode _ _ _ _ _ _ _ _ stepError _ _ _ _ _ _ _ => cases stepError; cases hover
  | sink hrefused => exact Bool.noConfusion (hover.symm.trans hrefused.startsOver)
  | input _ _ _ _ _ => cases hover
  | truncated _ _ _ _ => cases hover

/-- A call moves a decoder on by what it hands out, unless it starts over. -/
theorem offset_of_report {fuel : Nat} {d : Decoder c} {call : Call σ} {r : Report c σ}
    (h : call.report fuel d = .ok r) :
    r.after.outputOffset = if r.startsOver then 0 else d.outputOffset + r.length := by
  by_cases hreset : call = .reset
  · subst hreset
    cases h
    exact reset_offset d
  rw [startsOver_of_report h hreset]
  cases hanswer : r.answer with
  | ok returned => exact offset_of_answer h hreset hanswer
  | error error =>
      cases hover : error.startsOver with
      | false =>
          rw [startedOver, if_neg (by rw [hover]; exact Bool.false_ne_true)]
          exact offset_of_error h hreset hanswer hover
      | true =>
          rcases afresh_of_report h hanswer hover with ⟨memory, hafter⟩
          rw [startedOver, if_pos hover, hafter]
          exact created_offset _ _ _

end Offsets

/-! ## Histories -/

section Histories

variable {σ : Type} [Sink σ]

/-- The decoder that a history leads to, if it begins with this one. -/
def final : Decoder c → List (Record c) → Decoder c
  | d, [] => d
  | _, r :: rest => final r.after rest

/-- How many bytes were handed out since the last reset, if there have been so many before. -/
def handedSince : Nat → List (Record c) → Nat
  | before, [] => before
  | before, r :: rest =>
    handedSince (if r.startsOver then 0 else before + (r.chunks.flatMap Chunk.data).length) rest

/-- The offset is what was handed out since the last reset. -/
theorem offset_of_history {fuel : Nat} {calls : List (Call σ)} {d : Decoder c}
    {records : List (Record c)} (h : history fuel d calls = .ok records) :
    (final d records).outputOffset = handedSince d.outputOffset records := by
  induction calls generalizing d records with
  | nil => cases h; rfl
  | cons call rest ih =>
      rcases history_cons_ok h with ⟨r, later, hrun, hlater, rfl⟩
      rw [run_eq_report] at hrun
      rcases map_eq_ok hrun with ⟨q, hq, rfl⟩
      rw [final, handedSince, ih hlater, offset_of_report hq]
      rfl

theorem reachable_final {fuel : Nat} {calls : List (Call σ)} {d : Decoder c}
    {records : List (Record c)} (h : history fuel d calls = .ok records) (hd : Reachable d) :
    Reachable (final d records) := by
  induction calls generalizing d records with
  | nil => cases h; exact hd
  | cons call rest ih =>
      rcases history_cons_ok h with ⟨r, later, hrun, hlater, rfl⟩
      rw [final]
      exact ih hlater (hd.call hrun)

/-- Histories that record the same lead to decoders that correspond. -/
theorem Abreast.final {S₁ M₁ S₂ M₂ : Type} {c₁ : Codec S₁ M₁} {c₂ : Codec S₂ M₂}
    {L : Likeness c₁ c₂} {records₁ : List (Record c₁)} {records₂ : List (Record c₂)}
    (h : Abreast (RecordAlike L) records₁ records₂) {d₁ : Decoder c₁} {d₂ : Decoder c₂}
    (hd : L.Shifted 0 d₁ d₂) : L.Shifted 0 (final d₁ records₁) (final d₂ records₂) := by
  induction h generalizing d₁ d₂ with
  | nil => exact hd
  | cons first _ ih => exact ih first.after

end Histories

/-! ## Truncated streams -/

section Finishing

/-- A session that has read something and has not met its end. -/
def Midway (deeds : List Deed) : Prop :=
  (∃ deed ∈ deeds, 0 < deed.read) ∧ ∀ deed ∈ deeds, deed.outcome ≠ .ok .streamEnd

/-- What `finish` says when the live session has done this, and so much has been handed out. -/
structure FinishesRight (d : Decoder c) (deeds : List Deed) (handed : Nat) : Prop where
  truncated : Midway deeds → d.finish.result = .error (.truncated handed)
  whole : ¬ Midway deeds → d.finish = ⟨d, [], .ok ()⟩

/-- A decoder is in a stream exactly if its session is. -/
theorem Decoder.Flagged.pending_iff {e : Decoder c.chronicled} (h : e.Flagged)
    (hready : e.isReady = true) : e.isPending = true ↔ Midway e.deeds := by
  rcases h (isReady_iff.mp hready) with ⟨hconsumed, hfinished⟩
  have hopen : e.finished = false ↔ ∀ deed ∈ e.deeds, deed.outcome ≠ .ok .streamEnd := by
    rw [← Bool.not_eq_true, hfinished, not_exists]
    simp only [not_and, ne_eq]
  rw [isPending, Bool.and_eq_true, Bool.not_eq_true', hconsumed, hopen, Midway]

/-- Nothing can be truncated right after `finish` was called. -/
theorem finish_finish (d : Decoder c) :
    d.finish.decoder.finish = ⟨d.finish.decoder, [], .ok ()⟩ := by
  cases hpending : d.isPending with
  | false =>
      rw [finish_of_not_pending hpending]
      exact finish_of_not_pending hpending
  | true =>
      rw [finish_of_pending hpending, fail_decoder]
      -- Whether a session could be started or not, the flags have been cleared.
      refine finish_of_not_pending ?_
      rcases reset_cases d with ⟨s, memory, _, hreset⟩ | ⟨cause, memory, _, hreset⟩
      · rw [hreset]
        rfl
      · rw [hreset]
        rfl

variable {σ : Type} [Sink σ]

/-- After every history that leaves the decoder with a session, `finish` reports a truncated stream
    exactly if this session has read something since it was started, and none of its steps has met
    the end of a stream; then it reports how much was handed out since the last reset, and otherwise
    it does nothing. Right after that it never reports anything. -/
theorem truncation_exact {fuel : Nat} {memory : M} {calls : List (Call σ)}
    {records : List (Record c)} (h : history fuel (idle c memory) calls = .ok records) :
    ∃ chronicled, history fuel (idle c.chronicled (memory, [])) calls = .ok chronicled ∧
      Abreast (RecordAlike (chronicling c)) chronicled records ∧
      (chronicling c).Shifted 0 (final (idle c.chronicled (memory, [])) chronicled)
        (final (idle c memory) records) ∧
      ((final (idle c memory) records).isReady = true →
        FinishesRight (final (idle c memory) records)
          (final (idle c.chronicled (memory, [])) chronicled).deeds (handedSince 0 records)) ∧
      (final (idle c memory) records).finish.decoder.finish =
        ⟨(final (idle c memory) records).finish.decoder, [], .ok ()⟩ := by
  have halike := history_alike fuel calls (chronicling_idle (c := c) memory [])
  rw [h] at halike
  rcases halike.of_ok with ⟨chronicled, hchronicled, hrecords⟩
  have hsame := hrecords.final (chronicling_idle (c := c) memory [])
  refine ⟨chronicled, hchronicled, hrecords, hsame, fun hready => ?_, finish_finish _⟩
  have hflagged := (reachable_final hchronicled (.idle _)).flagged
  have hpending := hflagged.pending_iff (hsame.isReady.trans hready)
  rw [hsame.isPending] at hpending
  have hoffset : (final (idle c memory) records).outputOffset = handedSince 0 records :=
    offset_of_history h
  refine ⟨fun hmidway => ?_, fun hnot => ?_⟩
  · rw [finish_of_pending (hpending.mpr hmidway), hoffset]
    rfl
  · exact finish_of_not_pending (Bool.eq_false_iff.mpr fun hp => hnot (hpending.mp hp))

/-- Two members, of which the second is cut off, after a stream that was cut off too. -/
theorem truncation_exact_copier : ∃ (records : List (Record copier))
    (chronicled : List (Record copier.chronicled)),
    history 9 (idle copier ()) [.reset, .setBufferSize ⟨2, by decide⟩,
      .push [7] (#[] : Array Chunk), .finish, .setMultipleMembers true, .push [5, 6, 0, 8] #[]] =
      .ok records ∧
    history 9 (idle copier.chronicled ((), [])) [.reset, .setBufferSize ⟨2, by decide⟩,
      .push [7] (#[] : Array Chunk), .finish, .setMultipleMembers true, .push [5, 6, 0, 8] #[]] =
      .ok chronicled ∧
    Midway (final (idle copier.chronicled ((), [])) chronicled).deeds ∧
    (final (idle copier ()) records).finish.result = .error (.truncated 3) := by
  have hreturns : ∃ records, history 9 (idle copier ()) [.reset, .setBufferSize ⟨2, by decide⟩,
      .push [7] (#[] : Array Chunk), .finish, .setMultipleMembers true, .push [5, 6, 0, 8] #[]] =
      .ok records ∧ (final (idle copier ()) records).isReady = true ∧ handedSince 0 records = 3 :=
    ⟨_, rfl, rfl, rfl⟩
  have hdone : ∃ chronicled, history 9 (idle copier.chronicled ((), [])) [.reset,
      .setBufferSize ⟨2, by decide⟩, .push [7] (#[] : Array Chunk), .finish,
      .setMultipleMembers true, .push [5, 6, 0, 8] #[]] = .ok chronicled ∧
      (final (idle copier.chronicled ((), [])) chronicled).deeds =
        [⟨1, .ok .progress⟩, ⟨0, .ok .progress⟩] := ⟨_, rfl, rfl⟩
  rcases hreturns with ⟨records, hrecords, hready, hhanded⟩
  rcases hdone with ⟨chronicled, hchronicled, hdeeds⟩
  rcases truncation_exact hrecords with ⟨chronicled', hchronicled', _, _, hright, _⟩
  cases hchronicled.symm.trans hchronicled'
  have hmidway : Midway (final (idle copier.chronicled ((), [])) chronicled).deeds := by
    rw [hdeeds]
    simp only [Midway, List.mem_cons, List.not_mem_nil, or_false, exists_eq_or_imp, exists_eq_left,
      forall_eq_or_imp, forall_eq, Nat.zero_lt_one, true_or, ne_eq, Except.ok.injEq, reduceCtorEq,
      not_false_eq_true, and_self]
  rw [hhanded] at hright
  exact ⟨records, chronicled, hrecords, hchronicled, hmidway, (hright hready).truncated hmidway⟩

end Finishing

end Decompression
