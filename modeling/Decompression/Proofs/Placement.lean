import Decompression.Proofs.Members

/-!
# Streams within Longer Input

The end of a stream need not be the end of the input it comes in. A primitive that looks at
nothing before its stream and at nothing behind it cannot tell where the stream lies, and
neither can the decoder, up to the point where the stream is over: there it has to see
whether there is more.

`Goes` lists the ways in which a round of a push can go without a failure. A round goes the
same way in a longer buffer, except for the one that would have been the last; so whole
pushes of complete streams can be placed in longer input, and what is left to be done
there is what comes after the stream.

## Main definitions

* `Cursor.placed`: A cursor in a longer buffer.
* `Codec.Completes`, `Codec.Local`: The stream ends here; nothing around it is looked at.
* `Goes`: A round of a push, if nothing fails.

## Theorems

* `goes_of_drive`, `drive_of_goes`: These are the rounds in which nothing fails.
* `completes_of_reaches`: The session of a push that gets to the end completes its stream.
* `ends_placed`: A complete push in longer input.
-/

namespace Decompression

open Decoder Loop

namespace Cursor

/-- The cursor in a longer buffer, with some bytes before and some behind. -/
def placed (before later : List UInt8) (cursor : Cursor) : Cursor :=
  ⟨before ++ cursor.bytes ++ later, before.length + cursor.index⟩

variable {before later : List UInt8} {cursor : Cursor}

theorem placed_inBounds (h : cursor.InBounds) (before later : List UInt8) :
    (cursor.placed before later).InBounds := by
  unfold InBounds at h ⊢
  simp only [placed, List.length_append]
  omega

theorem rest_placed (h : cursor.InBounds) :
    (cursor.placed before later).rest = cursor.rest ++ later := by
  unfold InBounds at h
  unfold rest placed
  dsimp only
  rw [List.append_assoc, List.drop_append, List.drop_of_length_le (Nat.le_add_right _ _),
    List.nil_append, Nat.add_sub_cancel_left, List.drop_append_of_le_length h]

theorem placed_ne_nil (h : cursor.InBounds) (hrest : cursor.rest ≠ []) :
    (cursor.placed before later).rest ≠ [] := by
  rw [rest_placed h]
  exact List.append_ne_nil_of_left_ne_nil hrest later

theorem placed_placed : (cursor.placed [] later).placed before [] = cursor.placed before later := by
  simp only [placed, List.nil_append, List.append_nil, List.length_nil, Nat.zero_add,
    List.append_assoc]

-- A position in a buffer is the beginning of what comes after it.
theorem placed_ofBytes {x : List UInt8} (h : cursor.InBounds) (hrest : cursor.rest = x ++ later) :
    (ofBytes x).placed cursor.front later = cursor := by
  have hbytes : cursor.front ++ x ++ later = cursor.bytes := by
    rw [List.append_assoc, ← hrest, front_append_rest]
  have hindex : cursor.front.length = cursor.index := length_front h
  simp only [placed, ofBytes, hbytes, hindex, Nat.add_zero]

end Cursor

variable {S M : Type} {c : Codec S M}

/-! ## Streams that end -/

section Streams

def Stepped.placed (before later : List UInt8) (r : Stepped S) : Stepped S :=
  { r with input := r.input.placed before later }

/-- Some run of the session gets to the end of its stream within the input. -/
inductive Codec.Completes (c : Codec S M) : S → Cursor → Prop
  | last {s : S} {input : Cursor} {buffer : List UInt8} {stepped : Stepped S}
      (bounds : input.InBounds) (room : buffer ≠ [])
      (step : c.step s input (.ofBytes buffer) = stepped) (read : stepped.input.InBounds)
      (outcome : stepped.outcome = .ok .streamEnd) : Completes c s input
  | more {s : S} {input : Cursor} {buffer : List UInt8} {stepped : Stepped S}
      (bounds : input.InBounds) (room : buffer ≠ [])
      (step : c.step s input (.ofBytes buffer) = stepped) (read : stepped.input.InBounds)
      (outcome : stepped.outcome = .ok .progress)
      (later : Completes c stepped.session stepped.input) : Completes c s input

/-- Steps look at unread bytes only and read on from there, and up to the end of a stream they
    depend on nothing behind that end and read nothing there. -/
structure Codec.Local (c : Codec S M) : Prop where
  unread : ∀ (s : S) (before : List UInt8) {input : Cursor} {buffer : List UInt8},
    input.InBounds → buffer ≠ [] → c.step s (input.placed before []) (.ofBytes buffer) =
      (c.step s input (.ofBytes buffer)).placed before []
  within : ∀ {s : S} {input : Cursor} {buffer : List UInt8}, c.Completes s input → buffer ≠ [] →
    ∀ later, c.step s (input.placed [] later) (.ofBytes buffer) =
      (c.step s input (.ofBytes buffer)).placed [] later

theorem Codec.Completes.bounds {s : S} {input : Cursor} (h : c.Completes s input) :
    input.InBounds := by
  cases h with
  | last bounds => exact bounds
  | more bounds => exact bounds

theorem Codec.Local.step_placed (hc : c.Local) {s : S} {input : Cursor} {buffer : List UInt8}
    (h : c.Completes s input) (hroom : buffer ≠ []) (before later : List UInt8) :
    c.step s (input.placed before later) (.ofBytes buffer) =
      (c.step s input (.ofBytes buffer)).placed before later := by
  have hunread := hc.unread s before (Cursor.placed_inBounds h.bounds [] later) hroom
  rw [Cursor.placed_placed, hc.within h hroom later] at hunread
  rw [hunread]
  simp only [Stepped.placed, Cursor.placed_placed]

end Streams

/-! ## Sessions that were run -/

section Running

variable {σ : Type}

/-- The session was run and did not fail. -/
structure Went (alloc : Allocator σ) (d : Decoder c) (input : Cursor) (sink : σ)
    (events : List Event) (entered : Decoder c) (s : S) (buffer : List UInt8) (served : σ)
    (stepped : Stepped S) (status : Status) : Prop where
  ran : Ran alloc d input sink events entered s buffer served stepped
  read : stepped.input.InBounds
  outcome : stepped.outcome = .ok status
  written : stepped.output.InBounds

variable {alloc : Allocator σ} {d entered : Decoder c} {input : Cursor} {sink served : σ}
  {events : List Event} {s : S} {buffer : List UInt8} {stepped : Stepped S} {status : Status}

-- A session that reports the end of its stream has completed it.
theorem Went.completes
    (h : Went alloc d input sink events entered s buffer served stepped .streamEnd) :
    c.Completes s input :=
  .last h.ran.bounds h.ran.room h.ran.step h.read h.outcome

-- While a stream goes on it is the decoder's own session that is run.
theorem entered_self (h : Entered d input events entered) (hrunning : d.finished = false) :
    entered = d := by
  cases h with
  | stay _ => rfl
  | member hfinished _ _ _ => rw [hrunning] at hfinished; cases hfinished

theorem Went.session_eq
    (h : Went alloc d input sink events entered s buffer served stepped status)
    (hrunning : d.finished = false) {s' : S} (hs : d.session = some s') : s = s' := by
  have hsession := h.ran.session
  rw [entered_self h.ran.enter hrunning] at hsession
  exact Option.some.inj (hsession.symm.trans hs)

theorem entered_config (h : Entered d input events entered) :
    entered.outputOffset = d.outputOffset ∧ entered.multipleMembers = d.multipleMembers ∧
      entered.bufferSize = d.bufferSize := by
  cases h with
  | stay _ => exact ⟨rfl, rfl, rfl⟩
  | member _ _ _ _ => exact ⟨rfl, rfl, rfl⟩

-- For several members no session is run that is over already.
theorem entered_running (h : Entered d input events entered)
    (hmultiple : d.multipleMembers = true) :
    entered.finished = false := by
  cases h with
  | stay hstay =>
      by_cases hfinished : d.finished = true
      · rcases hstay hfinished with ⟨_, hsingle⟩
        rw [hmultiple] at hsingle
        cases hsingle
      · exact Bool.not_eq_true _ ▸ hfinished
  | member _ _ _ _ => rfl

theorem enter_of_entered (h : Entered d input events entered) (hbounds : input.InBounds) :
    d.enter input = .ok (.go events entered) := by
  cases h with
  | stay hstay =>
      by_cases hfinished : d.finished = true
      · rcases hstay hfinished with ⟨hmore, hsingle⟩
        rcases List.exists_cons_of_ne_nil hmore with ⟨b, bs, hcons⟩
        simp only [enter, hfinished, if_true, Cursor.rest?, if_pos hbounds, hcons, hsingle,
          Bool.false_eq_true, if_false]
      · exact enter_of_running (Bool.not_eq_true _ ▸ hfinished)
  | member hfinished hmore hmultiple hstart =>
      exact enter_of_finished hfinished hmultiple hbounds hmore hstart

theorem request_of_serve (h : Ran alloc d input sink events entered s buffer served stepped) :
    entered.request alloc sink = (.ok buffer, served) := by
  simp only [request, h.serve, h.size, if_true]

/-- What an attempt makes of a step that did not fail. -/
theorem attempt_of_went
    (h : Went alloc d input sink events entered s buffer served stepped status) :
    attempt alloc ⟨d, input, sink⟩ =
      (if stepped.output.front = [] then
        .ok ((entered.afterStep input stepped status).concludeEmpty stepped.input status)
      else ((entered.afterStep input stepped status).concludeChunk stepped.input status
        stepped.output.front).map .answer).map fun
        | .again d => .again events ⟨d, stepped.input, served⟩
        | .answer o => answer events o stepped.input served := by
  have hran := h.ran
  rw [attempt_eq_runSession (enter_of_entered hran.enter hran.bounds) (request_of_serve hran)
    hran.session, runSession_of_ok hran.step hran.bounds h.read h.outcome,
      if_pos h.written, map_map]
  congr 1
  funext v
  cases v <;> rfl

/-- What an attempt makes of a step that failed. -/
theorem attempt_of_failed (h : Ran alloc d input sink events entered s buffer served stepped)
    (hread : stepped.input.InBounds) {error : StepError} (houtcome : stepped.outcome = .error error) :
    attempt alloc ⟨d, input, sink⟩ = .ok (.done
      (events ++ .failed (.ofStep error) ::
        (entered.returnSession stepped.session input stepped.input).reset.events)
      ⟨⟨(entered.returnSession stepped.session input stepped.input).reset.decoder,
        stepped.input, served⟩, .error (.ofStep error)⟩) := by
  rw [attempt_eq_runSession (enter_of_entered h.enter h.bounds) (request_of_serve h) h.session,
    runSession_of_error h.step h.bounds hread houtcome]
  rfl

-- A step that wrote something fills a chunk.
theorem attempt_of_chunk (h : Went alloc d input sink events entered s buffer served stepped status)
    (hsomething : stepped.output.front ≠ [])
    (hcount : entered.outputOffset + stepped.output.front.length =
      entered.memberBase + c.totalOut stepped.session)
    (hrange : entered.outputOffset + stepped.output.front.length < offsetLimit) :
    attempt alloc ⟨d, input, sink⟩ = .ok (.done
      (events ++ Event.ofChunk (entered.isLast stepped.input status)
        ⟨entered.outputOffset, stepped.output.front⟩)
      ⟨⟨{ entered.afterStep input stepped status with
          outputOffset := entered.outputOffset + stepped.output.front.length },
        stepped.input, served⟩,
        .ok (.ofChunk (entered.isLast stepped.input status)
          ⟨entered.outputOffset, stepped.output.front⟩)⟩) := by
  have hs : (entered.afterStep input stepped status).session = some stepped.session :=
    afterStep_session
  rw [attempt_of_went h, if_neg hsomething,
    concludeChunk_of_count hs
      (by simpa only [afterStep_outputOffset, afterStep_memberBase] using hcount)
      (by simpa only [afterStep_outputOffset] using hrange)]
  simp only [Except.map, afterStep_isLast, afterStep_outputOffset, answer]

variable {before later : List UInt8}

theorem afterStep_placed (d : Decoder c) (input : Cursor) (stepped : Stepped S) (status : Status) :
    d.afterStep (input.placed before later) (stepped.placed before later) status =
      d.afterStep input stepped status := by
  have hmoved : (input.placed before later).index < (stepped.input.placed before later).index ↔
      input.index < stepped.input.index := by
    unfold Cursor.placed
    dsimp only
    omega
  simp only [afterStep, returnSession, Stepped.placed, hmoved]

theorem entered_placed (h : Entered d input events entered) (hbounds : input.InBounds) :
    Entered d (input.placed before later) events entered := by
  cases h with
  | stay hstay =>
      refine .stay fun hfinished => ?_
      exact ⟨Cursor.placed_ne_nil hbounds (hstay hfinished).1, (hstay hfinished).2⟩
  | member hfinished hrest hmultiple hstart =>
      exact .member hfinished (Cursor.placed_ne_nil hbounds hrest) hmultiple hstart

theorem Went.placed
    (h : Went alloc d input sink events entered s buffer served stepped status) (hc : c.Local)
    (hs : c.Completes s input) (before later : List UInt8) :
    Went alloc d (input.placed before later) sink events entered s buffer served
      (stepped.placed before later) status where
  ran := by
    refine ⟨entered_placed h.ran.enter h.ran.bounds, h.ran.session, h.ran.serve, h.ran.size,
      Cursor.placed_inBounds h.ran.bounds _ _, ?_⟩
    rw [hc.step_placed hs h.ran.room, h.ran.step]
  read := Cursor.placed_inBounds h.read _ _
  outcome := h.outcome
  written := h.written

theorem further_placed (hbounds : input.InBounds)
    (h : d.hasFurtherMember input = true) :
    d.hasFurtherMember (input.placed before later) = true := by
  rcases hasFurtherMember_iff.mp h with ⟨hmultiple, hrest⟩
  exact hasFurtherMember_iff.mpr ⟨hmultiple, Cursor.placed_ne_nil hbounds hrest⟩

theorem isLast_placed (hbounds : input.InBounds)
    (h : d.isLast input status = false) : d.isLast (input.placed before later) status = false := by
  cases status with
  | progress => rfl
  | streamEnd =>
      simp only [isLast, Bool.not_eq_false'] at h ⊢
      exact further_placed hbounds h

theorem rest_of_last (hmultiple : d.multipleMembers = true)
    (h : d.hasFurtherMember input = false) : input.rest = [] := by
  by_cases hrest : input.rest = []
  · exact hrest
  · rw [hasFurtherMember_iff.mpr ⟨hmultiple, hrest⟩] at h
    cases h

end Running

/-! ## Rounds without a failure -/

section Rounds

variable {σ : Type} [Sink σ]

/-- A round of a push in which nothing fails. -/
inductive Goes (w : Scene c Cursor σ) : PushRound c σ → Prop
  -- The stream is over and there is no more input
  | spent (finished : w.decoder.finished = true) (exhausted : w.input.rest = []) :
      Goes w (.done [] ⟨w, .ok true⟩)
  -- Nothing was written, and the stream is not over
  | starved {events : List Event} {entered : Decoder c} {s : S} {buffer : List UInt8}
      {served : σ} {stepped : Stepped S}
      (went : Went Sink.alloc w.decoder w.input w.sink events entered s buffer served stepped
        .progress)
      (nothing : stepped.output.front = []) :
      Goes w (.done events
        ⟨⟨entered.afterStep w.input stepped .progress, stepped.input, served⟩, .ok false⟩)
  -- Nothing was written, the member is over and there is a further one
  | passed {events : List Event} {entered : Decoder c} {s : S} {buffer : List UInt8}
      {served : σ} {stepped : Stepped S}
      (went : Went Sink.alloc w.decoder w.input w.sink events entered s buffer served stepped
        .streamEnd)
      (nothing : stepped.output.front = [])
      (further : entered.hasFurtherMember stepped.input = true) :
      Goes w (.again events ⟨entered.afterStep w.input stepped .streamEnd, stepped.input, served⟩)
  -- Nothing was written and the stream is over
  | closed {events : List Event} {entered : Decoder c} {s : S} {buffer : List UInt8}
      {served : σ} {stepped : Stepped S}
      (went : Went Sink.alloc w.decoder w.input w.sink events entered s buffer served stepped
        .streamEnd)
      (nothing : stepped.output.front = [])
      (last : entered.hasFurtherMember stepped.input = false) :
      Goes w (.done events
        ⟨⟨entered.afterStep w.input stepped .streamEnd, stepped.input, served⟩, .ok true⟩)
  -- A chunk was filled and taken, and there may be more
  | filled {events : List Event} {entered : Decoder c} {s : S} {buffer : List UInt8}
      {served taken : σ} {stepped : Stepped S} {status : Status}
      (went : Went Sink.alloc w.decoder w.input w.sink events entered s buffer served
        stepped status)
      (something : stepped.output.front ≠ [])
      (count : entered.outputOffset + stepped.output.front.length =
        entered.memberBase + c.totalOut stepped.session)
      (range : entered.outputOffset + stepped.output.front.length < offsetLimit)
      (last : entered.isLast stepped.input status = false)
      (push : Sink.push served ⟨entered.outputOffset, stepped.output.front⟩ = (.ok (), taken)) :
      Goes w (.again (events ++ Event.ofChunk false ⟨entered.outputOffset, stepped.output.front⟩)
        ⟨{ entered.afterStep w.input stepped status with
            outputOffset := entered.outputOffset + stepped.output.front.length },
          stepped.input, taken⟩)
  -- A last chunk was filled and taken
  | ended {events : List Event} {entered : Decoder c} {s : S} {buffer : List UInt8}
      {served taken : σ} {stepped : Stepped S} {status : Status}
      (went : Went Sink.alloc w.decoder w.input w.sink events entered s buffer served
        stepped status)
      (something : stepped.output.front ≠ [])
      (count : entered.outputOffset + stepped.output.front.length =
        entered.memberBase + c.totalOut stepped.session)
      (range : entered.outputOffset + stepped.output.front.length < offsetLimit)
      (last : entered.isLast stepped.input status = true)
      (push : Sink.push served ⟨entered.outputOffset, stepped.output.front⟩ = (.ok (), taken)) :
      Goes w (.done (events ++ Event.ofChunk true ⟨entered.outputOffset, stepped.output.front⟩)
        ⟨⟨{ entered.afterStep w.input stepped status with
            outputOffset := entered.outputOffset + stepped.output.front.length },
          stepped.input, taken⟩, .ok true⟩)

/-- A round that does not end in a failure goes like this. -/
theorem goes_of_drive {w : Scene c Cursor σ} (hready : w.decoder.session ≠ none)
    {r : PushRound c σ} (h : drive w = .ok r)
    (hok : ∀ events turn, r = .done events turn → ∃ ended, turn.result = .ok ended) : Goes w r := by
  rcases map_eq_ok h with ⟨q, hattempt, hr⟩
  have hcases := attempted_of_eq hready hattempt
  cases hcases with
  | spent hfinished hrest =>
      cases hr
      exact .spent hfinished hrest
  | refused _ _ _ _ =>
      cases hr
      rcases hok _ _ rfl with ⟨ended, hc⟩
      cases hc
  | unserved _ _ =>
      cases hr
      rcases hok _ _ rfl with ⟨ended, hc⟩
      cases hc
  | failed _ _ _ =>
      cases hr
      rcases hok _ _ rfl with ⟨ended, hc⟩
      cases hc
  | starved hran hread houtcome hwritten hnothing =>
      cases hr
      exact .starved ⟨hran, hread, houtcome, hwritten⟩ hnothing
  | passed hran hread houtcome hwritten hnothing hfurther =>
      cases hr
      exact .passed ⟨hran, hread, houtcome, hwritten⟩ hnothing hfurther
  | closed hran hread houtcome hwritten hnothing hlast =>
      cases hr
      exact .closed ⟨hran, hread, houtcome, hwritten⟩ hnothing hlast
  | @filled events entered s buffer served stepped status hran hread houtcome hwritten hsomething
      hcount hrange =>
      dsimp only at hr
      rw [takeProgress_ofChunk] at hr
      rcases hpush : Sink.push served ⟨entered.outputOffset, stepped.output.front⟩ with
        ⟨cause | taken, sink'⟩
      · rw [deliverThen_of_error hpush] at hr
        subst hr
        rcases hok _ _ rfl with ⟨ended, hc⟩
        cases hc
      · rw [deliverThen_of_ok hpush] at hr
        subst hr
        cases hlast : entered.isLast stepped.input status with
        | false =>
            exact .filled ⟨hran, hread, houtcome, hwritten⟩ hsomething hcount hrange hlast hpush
        | true =>
            exact .ended ⟨hran, hread, houtcome, hwritten⟩ hsomething hcount hrange hlast hpush

theorem drive_of_goes {w : Scene c Cursor σ} {r : PushRound c σ} (h : Goes w r)
    (hbounds : w.input.InBounds) : drive w = .ok r := by
  have hscene : attempt Sink.alloc w = attempt Sink.alloc ⟨w.decoder, w.input, w.sink⟩ := rfl
  unfold drive
  rw [hscene]
  cases h with
  | spent hfinished hrest =>
      have henter : w.decoder.enter w.input = .ok (.stop ⟨w.decoder, [], .ok (.ended none)⟩) := by
        simp only [enter, hfinished, if_true, Cursor.rest?, if_pos hbounds, hrest]
      simp only [attempt, henter]
      rfl
  | starved went hnothing =>
      rw [attempt_of_went went, if_pos hnothing]
      simp only [Except.map, concludeEmpty, answer, List.append_nil]
      rfl
  | passed went hnothing hfurther =>
      rw [attempt_of_went went, if_pos hnothing]
      simp only [Except.map, concludeEmpty, afterStep_hasFurtherMember, hfurther, if_true]
  | closed went hnothing hlast =>
      rw [attempt_of_went went, if_pos hnothing]
      simp only [Except.map, concludeEmpty, afterStep_hasFurtherMember, hlast, Bool.false_eq_true,
        if_false, answer, List.append_nil]
      rfl
  | filled went hsomething hcount hrange hlast hpush =>
      rw [attempt_of_chunk went hsomething hcount hrange]
      simp only [Except.map, takeProgress_ofChunk, deliverThen_of_ok hpush, hlast]
      rfl
  | ended went hsomething hcount hrange hlast hpush =>
      rw [attempt_of_chunk went hsomething hcount hrange]
      simp only [Except.map, takeProgress_ofChunk, deliverThen_of_ok hpush, hlast]
      rfl

/-- What a round of a push that goes well leads to. -/
theorem goes_of_settles {w : Scene c Cursor σ} (hready : w.decoder.session ≠ none)
    {r : PushRound c σ} (h : Settles (fun _ => drive w) (.ok r))
    (hok : ∀ events turn, r = .done events turn → ∃ ended, turn.result = .ok ended) : Goes w r :=
  goes_of_drive hready h.of_const hok

theorem settles_drive {w : Scene c Cursor σ} {r : PushRound c σ} (h : Goes w r)
    (hbounds : w.input.InBounds) : Settles (fun _ => drive w) (.ok r) :=
  settles_of_ok (drive_of_goes h hbounds)

/-- A push gets to the end of a stream, round by round. -/
inductive Reaches : Scene c Cursor σ → Turn c Cursor σ Bool → Prop
  | done {w : Scene c Cursor σ} {events : List Event} {turn : Turn c Cursor σ Bool}
      (goes : Goes w (.done events turn)) (result : turn.result = .ok true) : Reaches w turn
  | again {w next : Scene c Cursor σ} {events : List Event} {turn : Turn c Cursor σ Bool}
      (goes : Goes w (.again events next)) (rest : Reaches next turn) : Reaches w turn

theorem reaches_of_ends {w : Scene c Cursor σ} {r : Logged Event (Turn c Cursor σ Bool)}
    (h : Ends (fun _ => drive) w (.ok r)) (hready : w.decoder.session ≠ none)
    (hresult : r.result.result = .ok true) : Reaches w r.result := by
  induction h using Ends.ok_induction with
  | done hs =>
      refine .done (goes_of_settles hready hs fun events turn hround => ?_) hresult
      cases hround
      exact ⟨true, hresult⟩
  | again hs _ ih =>
      have hgoes := goes_of_settles hready hs fun events turn hround => by cases hround
      exact .again hgoes (ih (drive_ready hready hs.of_const) hresult)

/-- The session of a push that gets to the end completes its stream. -/
theorem completes_of_reaches {w : Scene c Cursor σ} {turn : Turn c Cursor σ Bool}
    (h : Reaches w turn) (hmultiple : w.decoder.multipleMembers = true)
    (hrunning : w.decoder.finished = false) {s : S} (hs : w.decoder.session = some s) :
    c.Completes s w.input := by
  induction h generalizing s with
  | done goes hresult =>
      cases goes with
      | spent hfinished _ => rw [hrunning] at hfinished; cases hfinished
      | starved _ _ => cases hresult
      | closed went _ _ => exact went.session_eq hrunning hs ▸ went.completes
      | @ended events entered s' buffer served taken stepped status went _ _ _ hlast _ =>
          have hstatus : status = .streamEnd := (isLast_iff.mp hlast).1
          subst hstatus
          exact went.session_eq hrunning hs ▸ went.completes
  | again goes _ ih =>
      cases goes with
      | passed went _ _ => exact went.session_eq hrunning hs ▸ went.completes
      | @filled events entered s' buffer served taken stepped status went _ _ _ _ _ =>
          cases status with
          | streamEnd => exact went.session_eq hrunning hs ▸ went.completes
          | progress =>
              have hconfig := (entered_config went.ran.enter).2.1.trans hmultiple
              have hentered := entered_running went.ran.enter hmultiple
              exact went.session_eq hrunning hs ▸
                .more went.ran.bounds went.ran.room went.ran.step went.read went.outcome
                  (ih hconfig hentered rfl)

end Rounds

/-! ## The end of a stream -/

section Endings

variable {σ : Type}

/-- What a push that gets to the end leaves behind. -/
structure AtEnd (d : Decoder c) (turn : Turn c Cursor σ Bool) : Prop where
  finished : turn.decoder.finished = true
  ready : turn.decoder.isReady = true
  exhausted : turn.input.rest = []
  bounds : turn.input.InBounds
  multiple : turn.decoder.multipleMembers = d.multipleMembers
  size : turn.decoder.bufferSize = d.bufferSize

theorem Went.atEnd {alloc : Allocator σ} {d entered : Decoder c} {input : Cursor}
    {sink served taken : σ}
    {events : List Event} {s : S} {buffer : List UInt8} {stepped : Stepped S}
    (h : Went alloc d input sink events entered s buffer served stepped .streamEnd)
    (hrest : stepped.input.rest = []) (offset : Nat) (result : Except DecodeError Bool) :
    AtEnd d (⟨⟨{ entered.afterStep input stepped .streamEnd with outputOffset := offset },
      stepped.input, taken⟩, result⟩ : Turn c Cursor σ Bool) where
  finished := rfl
  ready := rfl
  exhausted := hrest
  bounds := h.read
  multiple := (entered_config h.ran.enter).2.1
  size := (entered_config h.ran.enter).2.2

variable [Sink σ]

theorem Goes.keeps {w next : Scene c Cursor σ} {events : List Event}
    (h : Goes w (.again events next)) :
    next.decoder.isReady = true ∧ next.input.InBounds ∧
      next.decoder.multipleMembers = w.decoder.multipleMembers ∧
      next.decoder.bufferSize = w.decoder.bufferSize := by
  cases h with
  | passed went _ _ => exact ⟨rfl, went.read, (entered_config went.ran.enter).2⟩
  | filled went _ _ _ _ _ =>
      have hentered := (entered_config went.ran.enter).2
      refine ⟨by simp only [isReady, afterStep_session, Option.isSome_some], went.read, ?_, ?_⟩
      · exact afterStep_multipleMembers.trans hentered.1
      · exact afterStep_bufferSize.trans hentered.2

theorem atEnd_of_reaches {w : Scene c Cursor σ} {turn : Turn c Cursor σ Bool} (h : Reaches w turn)
    (hready : w.decoder.isReady = true) (hbounds : w.input.InBounds)
    (hmultiple : w.decoder.multipleMembers = true) : AtEnd w.decoder turn := by
  induction h with
  | done goes hresult =>
      cases goes with
      | spent hfinished hrest => exact ⟨hfinished, hready, hrest, hbounds, rfl, rfl⟩
      | starved _ _ => cases hresult
      | @closed events entered s buffer served stepped went _ hlast =>
          have hentered := (entered_config went.ran.enter).2.1.trans hmultiple
          exact went.atEnd (rest_of_last hentered hlast) entered.outputOffset _
      | @ended events entered s buffer served taken stepped status went _ _ _ hlast _ =>
          rcases isLast_iff.mp hlast with ⟨rfl, hrest⟩
          have hentered := (entered_config went.ran.enter).2.1.trans hmultiple
          exact went.atEnd (hrest hentered) _ _
  | @again w next events turn goes _ ih =>
      rcases goes.keeps with ⟨hready', hbounds', hmultiple', hsize'⟩
      have hend := ih hready' hbounds' (hmultiple'.trans hmultiple)
      exact ⟨hend.finished, hend.ready, hend.exhausted, hend.bounds, hend.multiple.trans hmultiple',
        hend.size.trans hsize'⟩

-- What is left open after a round is a member that goes on, or input for a further one.
theorem Goes.leaves_open {w next : Scene c Cursor σ} {events : List Event}
    (h : Goes w (.again events next)) (hmultiple : w.decoder.multipleMembers = true) :
    next.decoder.finished = true → next.input.rest ≠ [] := by
  intro hfinished
  cases h with
  | passed went _ hfurther => exact (hasFurtherMember_iff.mp hfurther).2
  | @filled events entered s buffer served taken stepped status went _ _ _ hlast _ =>
      have hrunning := entered_running went.ran.enter hmultiple
      cases status with
      | progress =>
          have hc : entered.finished = true := hfinished
          rw [hrunning] at hc
          cases hc
      | streamEnd =>
          simp only [isLast, Bool.not_eq_false'] at hlast
          exact (hasFurtherMember_iff.mp hlast).2

-- Nothing comes after the end of a stream if there is no more input.
theorem ends_over {w : Scene c Cursor σ} (hfinished : w.decoder.finished = true)
    (hrest : w.input.rest = []) (hbounds : w.input.InBounds)
    {o : Except Fault (Logged Event (Turn c Cursor σ Bool))} (h : Ends (fun _ => drive) w o) :
    o = .ok ⟨[], ⟨w, .ok true⟩⟩ := by
  have hover := drive_of_goes (.spent hfinished hrest) hbounds
  cases h with
  | fault hs => cases hover.symm.trans hs.of_const
  | done hs =>
      cases hover.symm.trans hs.of_const
      rfl
  | again hs _ => cases hover.symm.trans hs.of_const

end Endings

/-! ## In longer input -/

section Placements

variable {σ : Type} {before later : List UInt8}

/-- The scene in a longer buffer. -/
def Scene.placed (before later : List UInt8) (w : Scene c Cursor σ) : Scene c Cursor σ :=
  { w with input := w.input.placed before later }

theorem Scene.placed_input (w : Scene c Cursor σ) :
    (w.placed before later).input = w.input.placed before later :=
  rfl

variable [Sink σ]

-- A round that is not the last goes the same way in longer input.
theorem Goes.again_placed {w next : Scene c Cursor σ} {events : List Event} (hc : c.Local)
    (h : Goes w (.again events next)) {turn : Turn c Cursor σ Bool} (hrest : Reaches next turn)
    (hmultiple : w.decoder.multipleMembers = true) (before later : List UInt8) :
    Goes (w.placed before later) (.again events (next.placed before later)) := by
  cases h with
  | passed went hnothing hfurther =>
      have hwent := went.placed hc went.completes before later
      have hgoes := Goes.passed (w := w.placed before later) hwent hnothing
        (further_placed went.read hfurther)
      rw [Scene.placed_input, afterStep_placed] at hgoes
      exact hgoes
  | @filled events entered s buffer served taken stepped status went hsomething hcount hrange hlast
      hpush =>
      have hcompletes : c.Completes s w.input := by
        cases status with
        | streamEnd => exact went.completes
        | progress =>
            have hconfig := (entered_config went.ran.enter).2.1.trans hmultiple
            have hentered := entered_running went.ran.enter hmultiple
            exact .more went.ran.bounds went.ran.room went.ran.step went.read went.outcome
              (completes_of_reaches hrest hconfig hentered rfl)
      have hwent := went.placed hc hcompletes before later
      have hgoes := Goes.filled (w := w.placed before later) hwent hsomething hcount hrange
        (isLast_placed went.read hlast) hpush
      rw [Scene.placed_input, afterStep_placed] at hgoes
      exact hgoes

-- What would have been the last round is the last of its member only, if there is more.
theorem Goes.done_placed {w : Scene c Cursor σ} {turn : Turn c Cursor σ Bool} {events : List Event}
    (hc : c.Local) (h : Goes w (.done events turn)) (hresult : turn.result = .ok true)
    (hopen : w.decoder.finished = true → w.input.rest ≠ [])
    (hmultiple : w.decoder.multipleMembers = true) (before later : List UInt8) :
    ∃ events', Goes (w.placed before later)
      (if later = [] then .done events' ⟨turn.toScene.placed before later, .ok true⟩
        else .again events' (turn.toScene.placed before later)) := by
  cases h with
  | spent hfinished hrest => exact absurd hrest (hopen hfinished)
  | starved _ _ => cases hresult
  | @closed events entered s buffer served stepped went hnothing hlast =>
      have hentered := (entered_config went.ran.enter).2.1.trans hmultiple
      have hrest := rest_of_last hentered hlast
      have hwent := went.placed hc went.completes before later
      have hplaced : (stepped.input.placed before later).rest = later := by
        rw [Cursor.rest_placed went.read, hrest, List.nil_append]
      refine ⟨events, ?_⟩
      by_cases hlater : later = []
      · have hnone : entered.hasFurtherMember (stepped.input.placed before later) = false := by
          rw [← Bool.not_eq_true, hasFurtherMember_iff, hplaced]
          exact fun hc => hc.2 hlater
        have hgoes := Goes.closed (w := w.placed before later) hwent hnothing hnone
        rw [Scene.placed_input, afterStep_placed] at hgoes
        rw [if_pos hlater]
        exact hgoes
      · have hsome : entered.hasFurtherMember (stepped.input.placed before later) = true := by
          rw [hasFurtherMember_iff, hplaced]
          exact ⟨hentered, hlater⟩
        have hgoes := Goes.passed (w := w.placed before later) hwent hnothing hsome
        rw [Scene.placed_input, afterStep_placed] at hgoes
        rw [if_neg hlater]
        exact hgoes
  | @ended events entered s buffer served taken stepped status went hsomething hcount hrange hlast
      hpush =>
      rcases isLast_iff.mp hlast with ⟨rfl, hrest⟩
      have hentered := (entered_config went.ran.enter).2.1.trans hmultiple
      have hwent := went.placed hc went.completes before later
      have hplaced : (stepped.input.placed before later).rest = later := by
        rw [Cursor.rest_placed went.read, hrest hentered, List.nil_append]
      by_cases hlater : later = []
      · have hlast' : entered.isLast (stepped.input.placed before later) .streamEnd = true :=
          isLast_iff.mpr ⟨rfl, fun _ => hplaced.trans hlater⟩
        have hgoes := Goes.ended (w := w.placed before later) hwent hsomething hcount hrange hlast'
          hpush
        rw [Scene.placed_input, afterStep_placed] at hgoes
        refine ⟨events ++ Event.ofChunk true ⟨entered.outputOffset, stepped.output.front⟩, ?_⟩
        rw [if_pos hlater]
        exact hgoes
      · have hlast' : entered.isLast (stepped.input.placed before later) .streamEnd = false := by
          rw [← Bool.not_eq_true, isLast_iff, hplaced]
          exact fun hc => hlater (hc.2 hentered)
        have hgoes := Goes.filled (w := w.placed before later) hwent hsomething hcount hrange hlast'
          hpush
        rw [Scene.placed_input, afterStep_placed] at hgoes
        refine ⟨events ++ Event.ofChunk false ⟨entered.outputOffset, stepped.output.front⟩, ?_⟩
        rw [if_neg hlater]
        exact hgoes

/-- A complete push in longer input goes on with what comes after its stream. -/
theorem ends_placed (hc : c.Local) {w : Scene c Cursor σ} {turn : Turn c Cursor σ Bool}
    (h : Reaches w turn) (hready : w.decoder.isReady = true) (hbounds : w.input.InBounds)
    (hmultiple : w.decoder.multipleMembers = true)
    (hopen : w.decoder.finished = true → w.input.rest ≠ []) (before later : List UInt8)
    {o : Except Fault (Logged Event (Turn c Cursor σ Bool))}
    (hrest : Ends (fun _ => drive) (turn.toScene.placed before later) o) :
    ∃ events, Ends (fun _ => drive) (w.placed before later) (preceded events o) := by
  induction h with
  | @done w events turn goes hresult =>
      have hend := atEnd_of_reaches (.done goes hresult) hready hbounds hmultiple
      rcases goes.done_placed hc hresult hopen hmultiple before later with ⟨events', hgoes⟩
      by_cases hlater : later = []
      · rw [if_pos hlater] at hgoes
        have hexhausted : (turn.toScene.placed before later).input.rest = [] := by
          rw [Scene.placed_input, Cursor.rest_placed hend.bounds, hend.exhausted, hlater]
          rfl
        rw [ends_over (w := turn.toScene.placed before later) hend.finished hexhausted
          (Cursor.placed_inBounds hend.bounds _ _) hrest]
        refine ⟨events', ?_⟩
        rw [preceded_ok, List.append_nil]
        exact .done (settles_drive hgoes (Cursor.placed_inBounds hbounds _ _))
      · rw [if_neg hlater] at hgoes
        exact ⟨events', .again (settles_drive hgoes (Cursor.placed_inBounds hbounds _ _)) hrest⟩
  | @again w next events turn goes hreaches ih =>
      rcases goes.keeps with ⟨hready', hbounds', hmultiple', _⟩
      rcases ih hready' hbounds' (hmultiple'.trans hmultiple)
        (goes.leaves_open hmultiple) hrest with
        ⟨events', hends⟩
      have hgoes := goes.again_placed hc hreaches hmultiple before later
      refine ⟨events ++ events', ?_⟩
      rw [preceded_append]
      exact .again (settles_drive hgoes (Cursor.placed_inBounds hbounds _ _)) hends

end Placements

/-! ## What has been noted -/

section Notes

variable {σ : Type}

/-- Where the chunks end that were noted on the way from one decoder to another. -/
structure NotedWithin (d : Decoder c) (events : List Event) (d' : Decoder c) : Prop where
  forward : d.outputOffset ≤ d'.outputOffset
  chunks : ∀ offset length, Event.chunkProduced offset length ∈ events →
    offset + length ≤ d'.outputOffset

theorem NotedWithin.trans {d d' d'' : Decoder c} {as bs : List Event} (h : NotedWithin d as d')
    (h' : NotedWithin d' bs d'') : NotedWithin d (as ++ bs) d'' where
  forward := Nat.le_trans h.forward h'.forward
  chunks := by
    intro offset length hmem
    rcases List.mem_append.mp hmem with hin | hin
    · exact Nat.le_trans (h.chunks offset length hin) h'.forward
    · exact h'.chunks offset length hin

theorem Went.noted {alloc : Allocator σ} {d entered : Decoder c} {input : Cursor} {sink served : σ}
    {events : List Event} {s : S} {buffer : List UInt8} {stepped : Stepped S} {status : Status}
    (h : Went alloc d input sink events entered s buffer served stepped status) :
    NotedWithin d events (entered.afterStep input stepped status) where
  forward := Nat.le_of_eq (afterStep_outputOffset.trans (entered_config h.ran.enter).1).symm
  chunks := by
    intro offset length hmem
    have henter := h.ran.enter
    generalize entered = e at henter
    cases henter with
    | stay _ => cases hmem
    | member _ _ _ _ => cases hmem with | tail _ hmem => cases hmem

theorem noted_chunk (d : Decoder c) (last : Bool) (data : List UInt8) :
    NotedWithin d (Event.ofChunk last ⟨d.outputOffset, data⟩)
      { d with outputOffset := d.outputOffset + data.length } where
  forward := Nat.le_add_right _ _
  chunks := by
    intro offset length hmem
    cases last with
    | false =>
        cases hmem with
        | head => exact Nat.le_refl _
        | tail _ hmem => cases hmem
    | true =>
        cases hmem with
        | head => exact Nat.le_refl _
        | tail _ hmem => cases hmem with | tail _ hmem => cases hmem

/-- The decoder that a round leaves behind. -/
def roundDecoder : PushRound c σ → Decoder c
  | .again _ next => next.decoder
  | .done _ turn => turn.decoder

variable [Sink σ]

theorem Goes.noted {w : Scene c Cursor σ} {r : PushRound c σ} (h : Goes w r) :
    NotedWithin w.decoder (roundEvents r) (roundDecoder r) := by
  cases h with
  | spent _ _ => exact ⟨Nat.le_refl _, fun _ _ hmem => by cases hmem⟩
  | starved went _ => exact went.noted
  | passed went _ _ => exact went.noted
  | closed went _ _ => exact went.noted
  | @filled events entered s buffer served taken stepped status went _ _ _ _ _ =>
      have hchunk :=
        noted_chunk (entered.afterStep w.input stepped status) false stepped.output.front
      rw [afterStep_outputOffset] at hchunk
      exact went.noted.trans hchunk
  | @ended events entered s buffer served taken stepped status went _ _ _ _ _ =>
      have hchunk :=
        noted_chunk (entered.afterStep w.input stepped status) true stepped.output.front
      rw [afterStep_outputOffset] at hchunk
      exact went.noted.trans hchunk

/-- A push that does not fail ends behind every chunk that it has noted. -/
theorem noted_of_ends {w : Scene c Cursor σ} {r : Logged Event (Turn c Cursor σ Bool)}
    (h : Ends (fun _ => drive) w (.ok r)) (hready : w.decoder.session ≠ none) {ended : Bool}
    (hresult : r.result.result = .ok ended) : NotedWithin w.decoder r.events r.result.decoder := by
  induction h using Ends.ok_induction with
  | done hs =>
      refine (goes_of_settles hready hs fun events turn hround => ?_).noted
      cases hround
      exact ⟨ended, hresult⟩
  | again hs _ ih =>
      have hgoes := goes_of_settles hready hs fun events turn hround => by cases hround
      exact hgoes.noted.trans (ih (drive_ready hready hs.of_const) hresult)

end Notes

end Decompression
