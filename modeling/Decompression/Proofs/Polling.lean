import Decompression.Proofs.Copier
import Decompression.Proofs.Emission
import Decompression.Stream

/-!
# Polling against Pushing

A decoded stream does in many small moves what a push does in one go: it takes a piece of
input, decodes it a step at a time, and answers a poll as soon as there is a chunk. It has
to remember where it was, and to know when the piece is used up, when the stream is over,
and when there may be more. `follow` is the run that has none of these worries. It pushes
piece after piece into an array and writes down what comes out, together with how often
the source has been polled by then. `polls_follow` says that polling gives exactly this
list, answer by answer, and then nothing more.

`Plays` is the list of answers still to come from a stream in any state, one rule for each
way a move can end. A stream makes the steps that a push consists of, and where the push
would have returned it turns to the source or stops.

## Main definitions

* `Answer`, `Transcript`: What polls answer, and what is left in the end.
* `follow`: Pushing the pieces of a source one after another.
* `pollTimes`: Polling a stream some number of times.
* `Plays`: The answers that are still to come from a stream.

## Theorems

* `polls_of_plays`: What a stream plays is what polls answer.
* `plays_of_follow`: A stream plays what pushing gives.
* `follow_of_plays`: Pushing gives something if a stream plays to its end.
* `polls_follow`: The answers of any number of polls.
-/

namespace Decompression

open Decoder Loop

variable {S M : Type} {c : Codec S M}

/-! ## What polls answer -/

/-- The answer of a poll, how often the source had been polled by then, and how many chunks
    were filled for it. -/
structure Answer where
  polled : Polled
  asked : Nat
  filled : Nat
  deriving DecidableEq, Repr

/-- What a stream answers until it is over, and what is left then. -/
structure Transcript (c : Codec S M) where
  answers : List Answer
  decoder : Decoder c
  asked : Nat

namespace Transcript

/-- With some answers that came before. -/
def after (t : Transcript c) (earlier : List Answer) : Transcript c :=
  { t with answers := earlier ++ t.answers }

/-- The first `n` answers; a stream that is over goes on saying so, and asks for nothing. -/
def first (t : Transcript c) (n : Nat) : List Answer :=
  (t.answers ++ List.replicate n (⟨.over, t.asked, 0⟩ : Answer)).take n

/-- What came out, apart from when and after how many delays. -/
def yielded (t : Transcript c) : List Polled × Decoder c :=
  ((t.answers.map Answer.polled).filter (· ≠ .pending), t.decoder)

theorem yielded_after (t : Transcript c) (earlier : List Answer) :
    (t.after earlier).yielded =
      ((earlier.map Answer.polled).filter (· ≠ .pending) ++ t.yielded.1, t.yielded.2) := by
  simp only [yielded, after, List.map_append, List.filter_append]

theorem first_after (t : Transcript c) (a : Answer) (n : Nat) :
    (t.after [a]).first (n + 1) = a :: t.first n := by
  simp only [first, after, List.cons_append, List.nil_append, List.take_succ_cons]
  rw [List.take_append, List.take_append, List.take_replicate, List.take_replicate]
  congr 3
  omega

theorem first_of_over {t : Transcript c} (h : t.answers = []) (n : Nat) :
    t.first (n + 1) = ⟨.over, t.asked, 0⟩ :: t.first n := by
  simp only [first, h, List.nil_append, List.replicate_succ, List.take_succ_cons,
    List.take_replicate, Nat.min_self]

end Transcript

/-- The chunks of one piece of input, one to an answer. -/
def handOut (asked : Nat) (chunks : List Chunk) : List Answer :=
  chunks.map fun chunk => ⟨.chunk chunk, asked, 1⟩

section Reference

/-- What comes after a push: an error or the end of the stream is the end, and otherwise it
    goes on. -/
def afterPush (asked : Nat) (d : Decoder c) (onward : Except Fault (Transcript c)) :
    Except DecodeError Bool → Except Fault (Transcript c)
  | .error error => .ok ⟨[⟨.fail error.toIoError, asked, 0⟩], d, asked⟩
  | .ok ended => if ended && !d.multipleMembers then .ok ⟨[], d, asked⟩ else onward

/-- Pushes the pieces of a source into an array, one after another, and hands out the chunks
    of each before it asks for the next. -/
def follow (fuel : Nat) (d : Decoder c) (asked : Nat) :
    List SourceItem → Except Fault (Transcript c)
  | [] =>
    match d.finish with
    | ⟨d, _, .ok ()⟩ => .ok ⟨[], d, asked + 1⟩
    | ⟨d, _, .error error⟩ => .ok ⟨[⟨.fail error.toIoError, asked + 1, 0⟩], d, asked + 1⟩
  | .fail cause :: _ => .ok ⟨[⟨.fail cause, asked + 1, 0⟩], d, asked + 1⟩
  | .pending :: items =>
    (follow fuel d (asked + 1) items).map fun t => t.after [⟨.pending, asked + 1, 0⟩]
  | .data bytes :: items =>
    (d.push fuel bytes (#[] : Array Chunk)).bind fun r =>
      (afterPush (asked + 1) r.result.decoder (follow fuel r.result.decoder (asked + 1) items)
          r.result.result).map fun t =>
        t.after (handOut (asked + 1) r.result.sink.toList)

theorem stable_afterPush {asked : Nat} {d : Decoder c} {onward : Nat → Except Fault (Transcript c)}
    (h : Stable onward) (result : Except DecodeError Bool) :
    Stable fun fuel => afterPush asked d (onward fuel) result := by
  rcases result with error | ended
  · exact stable_const _
  · by_cases hlast : (ended && !d.multipleMembers) = true
    · simp only [afterPush, if_pos hlast]
      exact stable_const _
    · simp only [afterPush, if_neg hlast]
      exact h

theorem stable_follow (items : List SourceItem) :
    ∀ (d : Decoder c) (asked : Nat), Stable fun fuel => follow fuel d asked items := by
  induction items with
  | nil => exact fun _ _ => stable_const _
  | cons item items ih =>
      intro d asked
      cases item with
      | fail cause => exact stable_const _
      | pending => exact (ih d (asked + 1)).map _
      | data bytes =>
          simp only [follow]
          exact (stable_push ⟨d, .ofBytes bytes, #[]⟩).bind fun r =>
            (stable_afterPush (ih _ _) r.result.result).map _

end Reference

/-! ## Moves of a stream -/

section Moves

open DecodedStream

/-- What a move makes of a step of the decoder. -/
def takeStep (source : Source) (events : List Event) : Turn c Cursor Unit Progress → Move c
  | ⟨⟨d, input, _⟩, .error error⟩ => .done events (⟨source, d, input, .done⟩, .fail error.toIoError)
  | ⟨⟨d, input, _⟩, .ok .needInput⟩ => .again events ⟨source, d, input, .reading⟩
  | ⟨⟨d, input, _⟩, .ok (.chunk chunk)⟩ =>
        .done events (⟨source, d, input, .decoding⟩, .chunk chunk)
  | ⟨⟨d, input, _⟩, .ok (.ended (some chunk))⟩ =>
    .done events (⟨source, d, input, phaseAfterEnd d⟩, .chunk chunk)
  | ⟨⟨d, input, _⟩, .ok (.ended none)⟩ => .again events ⟨source, d, input, phaseAfterEnd d⟩

theorem decodeNext_eq (fuel : Nat) (source : Source) (d : Decoder c) (input : Cursor) :
    decodeNext fuel source d input =
      (d.next fuel input).map fun r => takeStep source r.events r.result := by
  unfold decodeNext
  rcases d.next fuel input with
    fault | ⟨events, ⟨⟨d', input', _⟩, error | chunk | (_ | chunk) | _⟩⟩ <;> rfl

theorem stable_pollRound (s : DecodedStream c) : Stable fun fuel => pollRound fuel s := by
  rcases s with ⟨source, d, input, _ | _ | _⟩
  · exact stable_const _
  · simp only [pollRound, decodeNext_eq]
    exact (stable_next d input).map _
  · exact stable_const _

theorem settles_decoding_iff {source : Source} {d : Decoder c} {input : Cursor} {move : Move c} :
    Settles (fun fuel => pollRound fuel ⟨source, d, input, .decoding⟩) (.ok move) ↔
      ∃ events d' input' result,
        Settles (fun fuel => d.next fuel input) (.ok ⟨events, ⟨⟨d', input', ()⟩, result⟩⟩) ∧
        move = takeStep source events ⟨⟨d', input', ()⟩, result⟩ := by
  simp only [pollRound, decodeNext_eq]
  rw [settles_map_iff (stable_next d input)]
  constructor
  · rintro ⟨a, ha, hmap⟩
    rcases map_eq_ok hmap with ⟨⟨events, ⟨⟨d', input', _⟩, result⟩⟩, rfl, rfl⟩
    exact ⟨events, d', input', result, ha, rfl⟩
  · rintro ⟨events, d', input', result, hnext, rfl⟩
    exact ⟨_, hnext, rfl⟩

theorem settles_decoding (source : Source) {d d' : Decoder c} {input input' : Cursor}
    {events : List Event} {result : Except DecodeError Progress}
    (h : Settles (fun fuel => d.next fuel input) (.ok ⟨events, ⟨⟨d', input', ()⟩, result⟩⟩)) :
    Settles (fun fuel => pollRound fuel ⟨source, d, input, .decoding⟩)
      (.ok (takeStep source events ⟨⟨d', input', ()⟩, result⟩)) :=
  settles_decoding_iff.mpr ⟨events, d', input', result, h, rfl⟩

theorem settles_reading (source : Source) (d : Decoder c) (input : Cursor) :
    Settles (fun fuel => pollRound fuel ⟨source, d, input, .reading⟩)
      (.ok (readNext ⟨source, d, input, .reading⟩)) :=
  settles_of_ok rfl

/-- What a poll answered. -/
def Answer.ofPoll (r : Logged Event (DecodedStream c × Polled)) : Answer :=
  ⟨r.result.2, r.result.1.source.polls, produced r.events⟩

/-- Polls a stream `n` times. -/
def pollTimes (fuel : Nat) : Nat → DecodedStream c → Except Fault (List Answer × DecodedStream c)
  | 0, s => .ok ([], s)
  | n + 1, s => (s.poll fuel).bind fun r =>
    (pollTimes fuel n r.result.1).map fun later => (.ofPoll r :: later.1, later.2)

theorem stable_pollTimes (n : Nat) :
    ∀ s : DecodedStream c, Stable fun fuel => pollTimes fuel n s := by
  induction n with
  | zero => exact fun _ => stable_const _
  | succ n ih =>
      intro s
      simp only [pollTimes]
      exact (stable_run stable_pollRound s).bind fun r => (ih r.result.1).map _

theorem settles_pollTimes_succ_iff {n : Nat} {s : DecodedStream c}
    {later : List Answer × DecodedStream c} :
    Settles (fun fuel => pollTimes fuel (n + 1) s) (.ok later) ↔
      ∃ r rest, Ends pollRound s (.ok r) ∧
        Settles (fun fuel => pollTimes fuel n r.result.1) (.ok rest) ∧
        later = (.ofPoll r :: rest.1, rest.2) := by
  simp only [pollTimes]
  have hpolls : Stable fun fuel => s.poll fuel := stable_run stable_pollRound s
  rw [settles_bind_iff hpolls fun r => (stable_pollTimes n r.result.1).map _]
  constructor
  · rintro ⟨r, hpoll, hrest⟩
    rcases (settles_map_iff (stable_pollTimes n _)).mp hrest with ⟨a, ha, hmap⟩
    rcases map_eq_ok hmap with ⟨rest, rfl, rfl⟩
    exact ⟨r, rest, (settles_run_iff stable_pollRound).mp hpoll, ha, rfl⟩
  · rintro ⟨r, rest, hpoll, hrest, rfl⟩
    exact ⟨r, (settles_run_iff stable_pollRound).mpr hpoll,
      (settles_map_iff (stable_pollTimes n _)).mpr ⟨_, hrest, rfl⟩⟩

end Moves

/-! ## What a stream plays -/

section Playing

open DecodedStream

/-- What a stream answers from here on, until it is over. -/
inductive Plays : DecodedStream c → Transcript c → Prop
  | ended {s : DecodedStream c} (h : s.phase = .done) : Plays s ⟨[], s.decoder, s.source.polls⟩
  | answer {s s' : DecodedStream c} {events : List Event} {polled : Polled} {t : Transcript c}
      (h : Settles (fun fuel => pollRound fuel s) (.ok (.done events (s', polled))))
      (rest : Plays s' t) :
      Plays s (t.after [⟨polled, s'.source.polls, produced events⟩])
  | move {s s' : DecodedStream c} {events : List Event} {t : Transcript c}
      (h : Settles (fun fuel => pollRound fuel s) (.ok (.again events s')))
      -- Nothing is filled on the way to an answer.
      (hquiet : produced events = 0) (rest : Plays s' t) : Plays s t

/-- The stream is over, and this is what is left. -/
structure OverWith (s : DecodedStream c) (t : Transcript c) : Prop where
  phase : s.phase = .done
  decoder : s.decoder = t.decoder
  asked : s.source.polls = t.asked

-- A stream that is over says so at once.
theorem ends_of_over {s : DecodedStream c} (h : s.phase = .done) :
    Ends pollRound s (.ok ⟨[], (s, .over)⟩) := by
  rcases s with ⟨source, d, input, phase⟩
  cases h
  exact .done (settles_of_ok rfl)

theorem polls_of_over {s : DecodedStream c} {t : Transcript c} (hempty : t.answers = [])
    (h : OverWith s t) (n : Nat) :
    Settles (fun fuel => pollTimes fuel n s) (.ok (t.first n, s)) := by
  induction n with
  | zero => exact settles_of_ok (by simp only [Transcript.first, List.take_zero])
  | succ n ih =>
      refine settles_pollTimes_succ_iff.mpr ⟨_, _, ends_of_over h.phase, ih, ?_⟩
      rw [Transcript.first_of_over hempty, ← h.asked]
      rfl

-- The next poll of a stream takes the first answer off what it plays.
theorem poll_of_plays {s : DecodedStream c} {t : Transcript c} (h : Plays s t) (n : Nat) :
    ∃ r t', Ends pollRound s (.ok r) ∧ Plays r.result.1 t' ∧
      t.first (n + 1) = .ofPoll r :: t'.first n ∧ t'.answers = t.answers.tail ∧
      t'.decoder = t.decoder ∧ t'.asked = t.asked ∧ (t.answers = [] → OverWith r.result.1 t') := by
  induction h with
  | @ended s hdone =>
      exact ⟨_, _, ends_of_over hdone, .ended hdone, Transcript.first_of_over rfl n, rfl, rfl, rfl,
        fun _ => ⟨hdone, rfl, rfl⟩⟩
  | @answer s s' events polled t hs hrest _ =>
      exact ⟨_, t, .done hs, hrest, Transcript.first_after t _ n, rfl, rfl, rfl,
        fun hc => absurd hc (List.cons_ne_nil _ _)⟩
  | @move s s' events t hs hquiet _ ih =>
      rcases ih with ⟨r, t', hends, hplays, hfirst, hsame⟩
      refine ⟨_, t', .again hs hends, hplays, ?_, hsame⟩
      simp only [Answer.ofPoll, produced_append, hquiet, Nat.zero_add]
      exact hfirst

-- One poll after another, each takes an answer off, until none is left.
theorem polls_of_plays {n : Nat} : ∀ {s : DecodedStream c} {t : Transcript c}, Plays s t →
    ∃ s', Settles (fun fuel => pollTimes fuel n s) (.ok (t.first n, s')) ∧
      (t.answers.length < n → OverWith s' t) := by
  induction n with
  | zero =>
      intro s t _
      refine ⟨s, settles_of_ok ?_, fun h => absurd h (Nat.not_lt_zero _)⟩
      simp only [Transcript.first, List.take_zero]
  | succ n ih =>
      intro s t h
      rcases poll_of_plays h n with
        ⟨r, t', hends, hplays, hfirst, htail, hdecoder, hasked, hover⟩
      have hsame : ∀ {s'}, OverWith s' t' → OverWith s' t := fun h =>
        ⟨h.phase, h.decoder.trans hdecoder, h.asked.trans hasked⟩
      by_cases hempty : t.answers = []
      · have hpolls := polls_of_over (by rw [htail, hempty]; rfl) (hover hempty) n
        exact ⟨_, settles_pollTimes_succ_iff.mpr ⟨r, _, hends, hpolls, by rw [hfirst]⟩,
          fun _ => hsame (hover hempty)⟩
      · rcases ih hplays with ⟨s', hpolls, hdone⟩
        refine ⟨s', settles_pollTimes_succ_iff.mpr ⟨r, _, hends, hpolls, by rw [hfirst]⟩,
          fun hlt => hsame (hdone ?_)⟩
        have hpos := List.length_pos_iff.mpr hempty
        rw [htail, List.length_tail]
        omega

/-! ## Pushing is what a stream plays -/

/-- What comes next in a stream when a push has returned. -/
def phaseAfter (d : Decoder c) (ended : Bool) : StreamPhase :=
  if ended then phaseAfterEnd d else .reading

theorem phaseAfter_eq (d : Decoder c) (ended : Bool) :
    phaseAfter d ended = if ended && !d.multipleMembers then .done else .reading := by
  unfold phaseAfter phaseAfterEnd
  cases ended <;> cases d.multipleMembers <;> rfl

/-- What a stream plays once the piece of input at hand is dealt with. -/
inductive Resumes (source : Source) (d : Decoder c) :
    Except DecodeError Bool → Transcript c → Prop
  | failed (error : DecodeError) :
      Resumes source d (.error error)
        ⟨[⟨.fail error.toIoError, source.polls, 0⟩], d, source.polls⟩
  | onward {ended : Bool} {t : Transcript c}
      (h : ∀ input, Plays ⟨source, d, input, phaseAfter d ended⟩ t) :
      Resumes source d (.ok ended) t

-- The steps of a push are made by as many rounds of the stream, an answer for each chunk.
theorem plays_of_emits {d d' : Decoder c} {input : Cursor} {chunks : List Chunk}
    {result : Except DecodeError Bool} (h : Emits d input chunks result d') {source : Source}
    {t : Transcript c} (hrest : Resumes source d' result t) :
    Plays ⟨source, d, input, .decoding⟩ (t.after (handOut source.polls chunks)) := by
  induction h generalizing t with
  | @failed d d' input input' events error hnext =>
      cases hrest with
      | failed _ =>
          have hplays := Plays.answer (settles_decoding source hnext) (.ended rfl)
          rw [produced_next hnext] at hplays
          exact hplays
  | @starved d d' input input' events hnext =>
      cases hrest with
      | onward hplays =>
          exact .move (settles_decoding source hnext) (produced_next hnext) (hplays input')
  | @ended d d' input input' events hnext =>
      cases hrest with
      | onward hplays =>
          exact .move (settles_decoding source hnext) (produced_next hnext) (hplays input')
  | @last d d' input input' events chunk hnext =>
      cases hrest with
      | onward hplays =>
          have hanswer := Plays.answer (settles_decoding source hnext) (hplays input')
          rw [produced_next hnext] at hanswer
          exact hanswer
  | @chunk d d' d'' input input' events chunk later result hnext _ ih =>
      have hanswer := Plays.answer (settles_decoding source hnext) (ih hrest)
      rw [produced_next hnext] at hanswer
      exact hanswer

theorem plays_of_over (source : Source) (d : Decoder c) (input : Cursor) :
    Plays ⟨source, d, input, .done⟩ ⟨[], d, source.polls⟩ :=
  .ended rfl

theorem plays_of_end {d : Decoder c} {asked : Nat} {t : Transcript c} {fuel : Nat}
    (h : follow fuel d asked [] = .ok t) (input : Cursor) :
    Plays ⟨⟨[], asked⟩, d, input, .reading⟩ t := by
  have hread := settles_reading ⟨[], asked⟩ d input
  have hquiet := produced_finish d
  rcases hfinish : d.finish with ⟨d', events, error | done⟩
  · simp only [readNext, Source.poll, hfinish] at hread
    simp only [follow, hfinish, Except.ok.injEq] at h
    rw [hfinish] at hquiet
    subst h
    have hplays := Plays.answer hread (plays_of_over ⟨[], asked + 1⟩ d' input)
    dsimp only at hquiet
    rw [hquiet] at hplays
    exact hplays
  · simp only [readNext, Source.poll, hfinish] at hread
    simp only [follow, hfinish, Except.ok.injEq] at h
    rw [hfinish] at hquiet
    subst h
    exact .move hread hquiet (plays_of_over ⟨[], asked + 1⟩ d' input)

-- Whatever a push is followed by in the reference run follows it in the stream.
theorem resumes_of_afterPush {source : Source} {d : Decoder c} {result : Except DecodeError Bool}
    {onward : Except Fault (Transcript c)} {t : Transcript c}
    (h : afterPush source.polls d onward result = .ok t)
    (honward : onward = .ok t → ∀ input, Plays ⟨source, d, input, .reading⟩ t) :
    Resumes source d result t := by
  rcases result with error | ended
  · cases h
    exact .failed error
  · refine .onward fun input => ?_
    rw [phaseAfter_eq]
    by_cases hlast : (ended && !d.multipleMembers) = true
    · simp only [afterPush, if_pos hlast, Except.ok.injEq] at h
      rw [if_pos hlast, ← h]
      exact plays_of_over source d input
    · simp only [afterPush, if_neg hlast] at h
      rw [if_neg hlast]
      exact honward h input

/-- A stream plays what pushing gives. -/
theorem plays_of_follow {fuel : Nat} {items : List SourceItem} :
    ∀ {d : Decoder c} {asked : Nat} {t : Transcript c}, follow fuel d asked items = .ok t →
      ∀ input, Plays ⟨⟨items, asked⟩, d, input, .reading⟩ t := by
  induction items with
  | nil => exact fun h input => plays_of_end h input
  | cons item items ih =>
      intro d asked t h input
      cases item with
      | fail cause =>
          cases h
          exact .answer (settles_reading ⟨.fail cause :: items, asked⟩ d input)
            (plays_of_over ⟨items, asked + 1⟩ d input)
      | pending =>
          rcases map_eq_ok h with ⟨t', hfollow, rfl⟩
          exact .answer (settles_reading ⟨.pending :: items, asked⟩ d input) (ih hfollow input)
      | data bytes =>
          rcases bind_eq_ok h with ⟨r, hpush, hafter⟩
          rcases map_eq_ok hafter with ⟨t', hrest, rfl⟩
          rcases emits_of_push hpush with ⟨chunks, hemits, hsink⟩
          have hresumes : Resumes ⟨items, asked + 1⟩ r.result.decoder r.result.result t' :=
            resumes_of_afterPush hrest fun hfollow => ih hfollow
          rw [hsink]
          exact .move (settles_reading ⟨.data bytes :: items, asked⟩ d input) rfl
            (plays_of_emits hemits hresumes)

/-! ## What a stream plays is pushing -/

theorem plays_again {s s' : DecodedStream c} {t : Transcript c} {events : List Event}
    (h : Plays s t) (hmove : Settles (fun fuel => pollRound fuel s) (.ok (.again events s'))) :
    ∃ t', Plays s' t' := by
  cases h with
  | ended hdone =>
      rcases s with ⟨source, d, input, phase⟩
      cases hdone
      cases hmove.of_const
  | answer hs _ => cases hs.unique hmove
  | move hs _ hrest =>
      cases hs.unique hmove
      exact ⟨_, hrest⟩

theorem plays_answered {s s' : DecodedStream c} {t : Transcript c} {events : List Event}
    {polled : Polled} (h : Plays s t)
    (hmove : Settles (fun fuel => pollRound fuel s) (.ok (.done events (s', polled)))) :
    ∃ t', Plays s' t' := by
  cases h with
  | ended hdone =>
      rcases s with ⟨source, d, input, phase⟩
      cases hdone
      cases hmove.of_const
      exact ⟨_, plays_of_over source d input⟩
  | answer hs hrest =>
      cases hs.unique hmove
      exact ⟨_, hrest⟩
  | move hs _ _ => cases hs.unique hmove

-- A stream that is not stuck in a piece of input makes all the steps of its push.
theorem emits_of_plays {s : DecodedStream c} {t : Transcript c} (h : Plays s t)
    (hphase : s.phase = .decoding) :
    ∃ chunks result d', Emits s.decoder s.input chunks result d' ∧
      ∀ ended, result = .ok ended → ∃ input t',
        Plays ⟨s.source, d', input, phaseAfter d' ended⟩ t' := by
  induction h with
  | ended hdone => cases hdone.symm.trans hphase
  | @answer s s' events polled t hs hrest ih =>
      rcases s with ⟨source, d, input, phase⟩
      cases hphase
      rcases settles_decoding_iff.mp hs with
        ⟨events', d', input', error | chunk | (_ | chunk) | _, hnext, hmove⟩
      · cases hmove
        exact ⟨[], _, d', .failed hnext, fun ended hc => by cases hc⟩
      · cases hmove
        rcases ih rfl with ⟨later, result, d'', hemits, honward⟩
        exact ⟨chunk :: later, result, d'', .chunk hnext hemits, honward⟩
      · cases hmove
      · cases hmove
        refine ⟨[chunk], _, d', .last hnext, fun ended hc => ?_⟩
        cases hc
        exact ⟨input', t, hrest⟩
      · cases hmove
  | @move s s' events t hs _ hrest _ =>
      rcases s with ⟨source, d, input, phase⟩
      cases hphase
      rcases settles_decoding_iff.mp hs with
        ⟨events', d', input', error | chunk | (_ | chunk) | _, hnext, hmove⟩
      · cases hmove
      · cases hmove
      · cases hmove
        refine ⟨[], _, d', .ended hnext, fun ended hc => ?_⟩
        cases hc
        exact ⟨input', t, hrest⟩
      · cases hmove
      · cases hmove
        refine ⟨[], _, d', .starved hnext, fun ended hc => ?_⟩
        cases hc
        exact ⟨input', t, hrest⟩

theorem settles_afterPush {asked : Nat} {d : Decoder c} {onward : Nat → Except Fault (Transcript c)}
    {result : Except DecodeError Bool}
    (h : ∀ ended, result = .ok ended → (ended && !d.multipleMembers) = false →
      ∃ t, Settles onward (.ok t)) :
    ∃ t, Settles (fun fuel => afterPush asked d (onward fuel) result) (.ok t) := by
  rcases result with error | ended
  · exact ⟨_, settles_of_ok rfl⟩
  · by_cases hlast : (ended && !d.multipleMembers) = true
    · simp only [afterPush, if_pos hlast]
      exact ⟨_, settles_of_ok rfl⟩
    · simp only [afterPush, if_neg hlast]
      exact h ended rfl (Bool.not_eq_true _ ▸ hlast)

/-- Pushing gives something if a stream plays to its end. -/
theorem follow_of_plays {items : List SourceItem} :
    ∀ {d : Decoder c} {asked : Nat} {input : Cursor} {t : Transcript c},
      Plays ⟨⟨items, asked⟩, d, input, .reading⟩ t →
      ∃ t', Settles (fun fuel => follow fuel d asked items) (.ok t') := by
  induction items with
  | nil =>
      intro d asked input t _
      simp only [follow]
      rcases d.finish with ⟨d', events, error | done⟩
      · exact ⟨_, settles_of_ok rfl⟩
      · exact ⟨_, settles_of_ok rfl⟩
  | cons item items ih =>
      intro d asked input t hplays
      have hread := settles_reading ⟨item :: items, asked⟩ d input
      cases item with
      | fail cause => exact ⟨_, settles_of_ok rfl⟩
      | pending =>
          rcases plays_answered hplays hread with ⟨t', hplays'⟩
          rcases ih hplays' with ⟨t'', hfollow⟩
          exact ⟨_, (settles_map_iff (stable_follow items d (asked + 1))).mpr ⟨_, hfollow, rfl⟩⟩
      | data bytes =>
          rcases plays_again hplays hread with ⟨t', hplays'⟩
          rcases emits_of_plays hplays' rfl with ⟨chunks, result, d', hemits, honward⟩
          rcases settles_push_of_emits hemits with ⟨events, input', sink, hpush, _⟩
          have hafter : ∃ t, Settles (fun fuel => afterPush (asked + 1) d'
              (follow fuel d' (asked + 1) items) result) (.ok t) := by
            refine settles_afterPush fun ended hresult hmore => ?_
            rcases honward ended hresult with ⟨input'', t'', hplays''⟩
            rw [phaseAfter_eq, hmore] at hplays''
            exact ih hplays''
          rcases hafter with ⟨t'', hafter⟩
          have hstable : ∀ d : Decoder c, ∀ result, Stable fun fuel =>
              afterPush (asked + 1) d (follow fuel d (asked + 1) items) result :=
            fun d => stable_afterPush (stable_follow items d (asked + 1))
          simp only [follow]
          exact ⟨_, (settles_bind_iff (stable_push ⟨d, .ofBytes bytes, #[]⟩)
            fun r => (hstable r.result.decoder r.result.result).map _).mpr
              ⟨_, hpush, (settles_map_iff (hstable d' result)).mpr ⟨_, hafter, rfl⟩⟩⟩

theorem produced_again {s s' : DecodedStream c} {events : List Event}
    (h : Settles (fun fuel => pollRound fuel s) (.ok (.again events s'))) :
    produced events = 0 := by
  rcases s with ⟨⟨items, asked⟩, d, input, _ | _ | _⟩
  · have hread := h.unique (settles_reading ⟨items, asked⟩ d input)
    rcases items with _ | ⟨bytes | cause | _, items⟩
    · have hquiet := produced_finish d
      rcases hfinish : d.finish with ⟨d', events', error | done⟩
      · simp only [readNext, Source.poll, hfinish] at hread
        cases hread
      · simp only [readNext, Source.poll, hfinish] at hread
        cases hread
        rw [hfinish] at hquiet
        exact hquiet
    · cases hread
      rfl
    · cases hread
    · cases hread
  · rcases settles_decoding_iff.mp h with
      ⟨events', d', input', error | chunk | (_ | chunk) | _, hnext, hmove⟩
    · cases hmove
    · cases hmove
    · cases hmove
      exact produced_next hnext
    · cases hmove
    · cases hmove
      exact produced_next hnext
  · cases h.of_const

theorem plays_of_ends {s : DecodedStream c} {r : Logged Event (DecodedStream c × Polled)}
    (h : Ends pollRound s (.ok r)) {t : Transcript c} (hrest : Plays r.result.1 t) :
    ∃ t', Plays s t' := by
  induction h using Ends.ok_induction with
  | done hs => exact ⟨_, .answer hs hrest⟩
  | again hs _ ih =>
      rcases ih hrest with ⟨t', hplays⟩
      exact ⟨t', .move hs (produced_again hs) hplays⟩

-- Polls that bring a stream to its end have played it.
theorem plays_of_polls {n : Nat} : ∀ {s : DecodedStream c} {r : List Answer × DecodedStream c},
    Settles (fun fuel => pollTimes fuel n s) (.ok r) → r.2.phase = .done → ∃ t, Plays s t := by
  induction n with
  | zero =>
      intro s r h hdone
      cases h.of_const
      exact ⟨_, .ended hdone⟩
  | succ n ih =>
      intro s r h hdone
      rcases settles_pollTimes_succ_iff.mp h with ⟨q, rest, hends, hrest, rfl⟩
      rcases ih hrest hdone with ⟨t, hplays⟩
      exact plays_of_ends hends hplays

/-! ## Delays -/

theorem map_after_yielded (r : Except Fault (Transcript c)) (earlier : List Answer) :
    (r.map fun t => t.after earlier).map Transcript.yielded =
      (r.map Transcript.yielded).map fun y =>
        ((earlier.map Answer.polled).filter (· ≠ .pending) ++ y.1, y.2) := by
  rw [map_map, map_map]
  simp only [Transcript.yielded_after]

theorem afterPush_yielded {asked asked' : Nat} {d : Decoder c}
    {onward onward' : Except Fault (Transcript c)}
    (h : onward.map Transcript.yielded = onward'.map Transcript.yielded)
    (result : Except DecodeError Bool) :
    (afterPush asked d onward result).map Transcript.yielded =
      (afterPush asked' d onward' result).map Transcript.yielded := by
  rcases result with error | ended
  · rfl
  · by_cases hlast : (ended && !d.multipleMembers) = true
    · simp only [afterPush, if_pos hlast]
      rfl
    · simp only [afterPush, if_neg hlast]
      exact h

theorem handOut_polled (asked : Nat) (chunks : List Chunk) :
    (handOut asked chunks).map Answer.polled = chunks.map Polled.chunk := by
  simp only [handOut, List.map_map]
  rfl

theorem follow_filter {fuel : Nat} (items : List SourceItem) :
    ∀ (d : Decoder c) (asked asked' : Nat),
      (follow fuel d asked items).map Transcript.yielded =
        (follow fuel d asked' (items.filter (· ≠ .pending))).map Transcript.yielded := by
  induction items with
  | nil =>
      intro d asked asked'
      simp only [follow, List.filter_nil]
      rcases d.finish with ⟨d', events, error | done⟩ <;> rfl
  | cons item items ih =>
      intro d asked asked'
      cases item with
      | fail cause => rfl
      | pending =>
          rw [List.filter_cons_of_neg (by decide), ← ih d (asked + 1) asked']
          simp only [follow]
          rw [map_after_yielded]
          cases follow fuel d (asked + 1) items <;> rfl
      | data bytes =>
          rw [List.filter_cons_of_pos
            (by simp only [ne_eq, reduceCtorEq, not_false_eq_true, decide_true])]
          simp only [follow]
          cases d.push fuel bytes (#[] : Array Chunk) with
          | error fault => rfl
          | ok r =>
              simp only [Except.bind]
              rw [map_after_yielded, map_after_yielded, handOut_polled, handOut_polled,
                afterPush_yielded (ih r.result.decoder (asked + 1) (asked' + 1))]

/-- Polling a decoded stream gives what pushing the pieces of its source one after another
    gives. Any number of polls answer with the first so many of the chunks and failures that
    come out, one to a poll and in their order, and have polled the source as often as that
    takes; then the stream is over, has the decoder that pushing ends with, and never polls
    its source again. Pushing returns if the stream is ever over. And a source that is not
    always ready delays the answers and does nothing else. -/
theorem polls_follow (d : Decoder c) (items : List SourceItem) :
    (∀ t, Settles (fun fuel => follow fuel d 0 items) (.ok t) → ∀ n, ∃ s,
      Settles (fun fuel => pollTimes fuel n (ofSource (.ofItems items) d)) (.ok (t.first n, s)) ∧
        (t.answers.length < n → OverWith s t)) ∧
    (∀ n r, Settles (fun fuel => pollTimes fuel n (ofSource (.ofItems items) d)) (.ok r) →
      r.2.phase = .done → ∃ t, Settles (fun fuel => follow fuel d 0 items) (.ok t)) ∧
    (∀ fuel, (follow fuel d 0 items).map Transcript.yielded =
      (follow fuel d 0 (items.filter (· ≠ .pending))).map Transcript.yielded) := by
  refine ⟨fun t hfollow n => ?_, fun n r hpolls hdone => ?_, fun fuel => follow_filter items d 0 0⟩
  · rcases hfollow.exists_fuel with ⟨fuel, hfuel⟩
    exact polls_of_plays (plays_of_follow hfuel default)
  · rcases plays_of_polls hpolls hdone with ⟨t, hplays⟩
    exact follow_of_plays hplays

theorem polls_follow_copier : ∃ d t s,
    d = ({ Decoder.copying true with bufferSize := ⟨2, by decide⟩ } :
      Decoder copier).reset.decoder ∧
    Settles (fun fuel => follow fuel d 0
      [.pending, .data [5, 6, 0, 7], .data [], .pending, .data [8, 0]]) (.ok t) ∧
    Settles (fun fuel => pollTimes fuel 6 (ofSource
      (.ofItems [.pending, .data [5, 6, 0, 7], .data [], .pending, .data [8, 0]]) d))
      (.ok (t.first 6, s)) ∧
    t.first 6 = [⟨.pending, 1, 0⟩, ⟨.chunk ⟨0, [5, 6]⟩, 2, 1⟩, ⟨.chunk ⟨2, [7]⟩, 2, 1⟩,
      ⟨.pending, 4, 0⟩, ⟨.chunk ⟨3, [8]⟩, 5, 1⟩, ⟨.over, 6, 0⟩] ∧ OverWith s t := by
  have hreturns : ∃ d t,
      d = ({ Decoder.copying true with bufferSize := ⟨2, by decide⟩ } :
        Decoder copier).reset.decoder ∧
      follow 9 d 0 [.pending, .data [5, 6, 0, 7], .data [], .pending, .data [8, 0]] = .ok t ∧
      t.asked = 6 ∧ t.answers = [⟨.pending, 1, 0⟩, ⟨.chunk ⟨0, [5, 6]⟩, 2, 1⟩,
        ⟨.chunk ⟨2, [7]⟩, 2, 1⟩, ⟨.pending, 4, 0⟩, ⟨.chunk ⟨3, [8]⟩, 5, 1⟩] :=
    ⟨_, _, rfl, rfl, rfl, rfl⟩
  rcases hreturns with ⟨d, t, hd, hfollow, hasked, hanswers⟩
  have hsettles := (stable_follow _ d 0).settles hfollow (ok_ne_outOfFuel t)
  rcases (polls_follow d
    [.pending, .data [5, 6, 0, 7], .data [], .pending, .data [8, 0]]).1 t hsettles 6 with
    ⟨s, hpolls, hover⟩
  refine ⟨d, t, s, hd, hsettles, hpolls, ?_, hover (by rw [hanswers]; decide)⟩
  rw [Transcript.first, hanswers, hasked]
  rfl

end Playing

end Decompression
