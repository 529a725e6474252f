import Decompression.Proofs.Observation

/-!
# Histories of a Decoder

A decoder lives through calls, one after another, each with whatever input and sink it is
given. A history is the list of what they left behind. It belongs to one decoder, so each
record begins where the one before it ended; and it holds returned calls only, because a
call that does not return leaves nothing behind.

A report says more of a call than its record does: also what was answered, what is left of
the input, and what became of the sink. Decoders that correspond have the same reports, and
so a decoder under observation has the same history as the decoder it is without the record.

## Main definitions

* `Call`: A call on a decoder.
* `Record`: What a call left behind, and what it handed out.
* `Call.run`, `history`: One call, and a list of calls.
* `Report`, `Call.report`, `reports`: The same, with all that the calls answered.
* `Decoder.Reachable`: A decoder that some calls lead to.
* `Matched`: Two calls that both return, or both do not.
* `Abreast`: Two lists, element by element.
* `ReportAlike`: Reports that say the same.

## Theorems

* `history_eq_reports`: A history is what the reports record.
* `reports_alike`, `history_alike`: Decoders that correspond have the same reports and the
  same history.
* `push_recorded`: Recording what a sink is called with changes nothing.
* `history_plain`: Observation changes nothing.
-/

namespace Decompression

open Decoder Loop

variable {S M σ : Type} {c : Codec S M}

/-- A call on a decoder. Every call that needs a sink comes with one of its own. -/
inductive Call (σ : Type) where
  | push (input : List UInt8) (sink : σ)
  | next (input : Cursor)
  | readAll (reader : Reader) (sink : σ)
  | finish
  | reset
  | release
  | setBufferSize (size : BufferSize)
  | setMultipleMembers (multiple : Bool)

/-- What a call left behind. -/
structure Record (c : Codec S M) where
  before : Decoder c
  after : Decoder c
  events : List Event
  -- The chunks handed to the sink or to the caller, in order, taken or not.
  chunks : List Chunk
  -- The decoder was reset, on request or because something failed.
  startsOver : Bool

namespace Record

/-- The record of a call that has handed chunks to a sink. -/
def ofTurn {ι α : Type} [Sink σ] (d : Decoder c) (r : Logged Event (Turn c ι (Recorder σ) α)) :
    Record c :=
  ⟨d, r.result.decoder, r.events, r.result.sink.handed, startedOver r.result.result⟩

/-- The record of a step, which hands its chunk to the caller. -/
def ofStep (d : Decoder c) (r : Logged Event (Turn c Cursor Unit Progress)) : Record c :=
  ⟨d, r.result.decoder, r.events, answeredChunks r.result.result, startedOver r.result.result⟩

/-- The record of a call that hands out nothing. -/
def ofOutcome (d : Decoder c) (o : Outcome c Unit) (startsOver : Bool) : Record c :=
  ⟨d, o.decoder, o.events, [], startsOver⟩

end Record

/-- One call on a decoder. -/
def Call.run [Sink σ] (fuel : Nat) (d : Decoder c) : Call σ → Except Fault (Record c)
  | .push input sink => (d.push fuel input (Recorder.ofSink sink)).map (Record.ofTurn d)
  | .next input => (d.next fuel input).map (Record.ofStep d)
  | .readAll reader sink => (d.readAll fuel reader (Recorder.ofSink sink)).map (Record.ofTurn d)
  | .finish => .ok (.ofOutcome d d.finish (startedOver d.finish.result))
  | .reset => .ok (.ofOutcome d d.reset true)
  | .release => .ok (.ofOutcome d d.release false)
  | .setBufferSize size => .ok ⟨d, { d with bufferSize := size }, [], [], false⟩
  | .setMultipleMembers multiple => .ok ⟨d, { d with multipleMembers := multiple }, [], [], false⟩

/-- What a list of calls leaves behind, call after call. -/
def history [Sink σ] (fuel : Nat) : Decoder c → List (Call σ) → Except Fault (List (Record c))
  | _, [] => .ok []
  | d, call :: rest =>
    match call.run fuel d with
    | .error fault => .error fault
    | .ok r => (history fuel r.after rest).map (r :: ·)

theorem history_cons_ok [Sink σ] {fuel : Nat} {d : Decoder c} {call : Call σ} {rest : List (Call σ)}
    {records : List (Record c)} (h : history fuel d (call :: rest) = .ok records) :
    ∃ r later, call.run fuel d = .ok r ∧ history fuel r.after rest = .ok later ∧
      records = r :: later := by
  unfold history at h
  cases hrun : call.run fuel d with
  | error fault => rw [hrun] at h; cases h
  | ok r =>
      rw [hrun] at h
      cases hrest : history fuel r.after rest with
      | error fault => simp only [hrest, Except.map, reduceCtorEq] at h
      | ok later =>
          simp only [hrest, Except.map, Except.ok.injEq] at h
          exact ⟨r, later, rfl, hrest, h.symm⟩

/-- A call begins with the decoder that it is made on. -/
theorem run_before [Sink σ] {fuel : Nat} {d : Decoder c} {call : Call σ} {r : Record c}
    (h : call.run fuel d = .ok r) : r.before = d := by
  cases call with
  | push input sink => rcases map_eq_ok h with ⟨_, _, rfl⟩; rfl
  | next input => rcases map_eq_ok h with ⟨_, _, rfl⟩; rfl
  | readAll reader sink => rcases map_eq_ok h with ⟨_, _, rfl⟩; rfl
  | _ => cases h; rfl

/-- Some calls lead to this decoder, from one that has not been given a session. -/
inductive Decoder.Reachable : Decoder c → Prop
  | idle (memory : M) : Reachable (idle c memory)
  | call {σ : Type} [Sink σ] {d : Decoder c} {fuel : Nat} {call : Call σ} {r : Record c}
      (before : Reachable d) (run : call.run fuel d = .ok r) : Reachable r.after

/-! ## Reports -/

/-- What a call returned, if it did not fail. -/
inductive Returned where
  | done
  -- Whether the stream is over
  | ended (atEnd : Bool)
  | progress (progress : Progress)

/-- What a call left of its input. -/
inductive Remainder where
  | nothing
  | cursor (input : Cursor)
  | reader (reader : Reader)

/-- Everything that a call left behind: its record, its answer, what is left of its input, and
    its sink. -/
structure Report (c : Codec S M) (σ : Type) extends Record c where
  answer : Except DecodeError Returned
  left : Remainder
  sink : Option (Recorder σ)

/-- The calls on the sink, if there was one. -/
def Report.calls (r : Report c σ) : List SinkCall :=
  r.sink.elim [] Recorder.calls

/-- The report of a call on a decoder. -/
def Call.report [Sink σ] (fuel : Nat) (d : Decoder c) : Call σ → Except Fault (Report c σ)
  | .push input sink => (d.push fuel input (Recorder.ofSink sink)).map fun q =>
    ⟨.ofTurn d q, q.result.result.map .ended, .cursor q.result.input, some q.result.sink⟩
  | .next input => (d.next fuel input).map fun q =>
    ⟨.ofStep d q, q.result.result.map .progress, .cursor q.result.input, none⟩
  | .readAll reader sink => (d.readAll fuel reader (Recorder.ofSink sink)).map fun q =>
    ⟨.ofTurn d q, q.result.result.map fun _ => .done, .reader q.result.input,
      some q.result.sink⟩
  | .finish => .ok ⟨.ofOutcome d d.finish (startedOver d.finish.result),
    d.finish.result.map fun _ => .done, .nothing, none⟩
  | .reset => .ok ⟨.ofOutcome d d.reset true, d.reset.result.map fun _ => .done, .nothing, none⟩
  | .release =>
    .ok ⟨.ofOutcome d d.release false, d.release.result.map fun _ => .done, .nothing, none⟩
  | .setBufferSize size =>
    .ok ⟨⟨d, { d with bufferSize := size }, [], [], false⟩, .ok .done, .nothing, none⟩
  | .setMultipleMembers multiple =>
    .ok ⟨⟨d, { d with multipleMembers := multiple }, [], [], false⟩, .ok .done, .nothing, none⟩

/-- The reports of a list of calls. -/
def reports [Sink σ] (fuel : Nat) : Decoder c → List (Call σ) → Except Fault (List (Report c σ))
  | _, [] => .ok []
  | d, call :: rest =>
    (call.report fuel d).bind fun r => (reports fuel r.after rest).map (r :: ·)

theorem run_eq_report [Sink σ] (fuel : Nat) (d : Decoder c) (call : Call σ) :
    call.run fuel d = (call.report fuel d).map Report.toRecord := by
  cases call with
  | push input sink => rw [Call.run, Call.report, map_map]
  | next input => rw [Call.run, Call.report, map_map]
  | readAll reader sink => rw [Call.run, Call.report, map_map]
  | _ => rfl

/-- A history is what the reports record. -/
theorem history_eq_reports [Sink σ] (fuel : Nat) (calls : List (Call σ)) (d : Decoder c) :
    history fuel d calls = (reports fuel d calls).map (List.map Report.toRecord) := by
  induction calls generalizing d with
  | nil => rfl
  | cons call rest ih =>
      rw [history, reports, run_eq_report]
      cases call.report fuel d with
      | error fault => rfl
      | ok r =>
          change (history fuel r.after rest).map _ = ((reports fuel r.after rest).map _).map _
          rw [ih, map_map, map_map]
          rfl

/-! ## Decoders that are alike have the same reports -/

section Alike

variable {S₁ M₁ S₂ M₂ : Type} {c₁ : Codec S₁ M₁} {c₂ : Codec S₂ M₂}

/-- Both calls return, and what they return is related, or neither returns. -/
inductive Matched {α β : Type} (rel : α → β → Prop) : Except Fault α → Except Fault β → Prop
  | ok {a : α} {b : β} (h : rel a b) : Matched rel (.ok a) (.ok b)
  | fault (f₁ f₂ : Fault) : Matched rel (.error f₁) (.error f₂)

-- Calls that are not ahead of each other return together.
theorem Agree.matched {α β : Type} {noted : β → List Event} {rel : α → β → Prop}
    {r₁ : Except Fault α} {r₂ : Except Fault β} (h : Agree 0 noted rel r₁ r₂) :
    Matched rel r₁ r₂ := by
  cases r₂ with
  | ok b =>
      rcases h.ok_of_zero with ⟨a, rfl, hab⟩
      exact .ok hab
  | error f₂ =>
      cases r₁ with
      | error f₁ => exact .fault f₁ f₂
      | ok a =>
          rcases h.ok_of_ok with ⟨b, hb, _⟩
          cases hb

theorem Matched.map {α β α' β' : Type} {rel : α → β → Prop} {rel' : α' → β' → Prop} {f : α → α'}
    {g : β → β'} (hrel : ∀ a b, rel a b → rel' (f a) (g b)) {r₁ : Except Fault α}
    {r₂ : Except Fault β} (h : Matched rel r₁ r₂) : Matched rel' (r₁.map f) (r₂.map g) := by
  cases h with
  | ok h => exact .ok (hrel _ _ h)
  | fault f₁ f₂ => exact .fault f₁ f₂

theorem Matched.bind {α β α' β' : Type} {rel : α → β → Prop} {rel' : α' → β' → Prop}
    {f : α → Except Fault α'} {g : β → Except Fault β'}
    (hrel : ∀ a b, rel a b → Matched rel' (f a) (g b)) {r₁ : Except Fault α}
    {r₂ : Except Fault β} (h : Matched rel r₁ r₂) : Matched rel' (r₁.bind f) (r₂.bind g) := by
  cases h with
  | ok h => exact hrel _ _ h
  | fault f₁ f₂ => exact .fault f₁ f₂

theorem Matched.of_ok {α β : Type} {rel : α → β → Prop} {r₁ : Except Fault α} {b : β}
    (h : Matched rel r₁ (.ok b)) : ∃ a, r₁ = .ok a ∧ rel a b := by
  cases h with
  | @ok a _ h => exact ⟨a, rfl, h⟩

/-- Two lists of the same length, element by element. -/
inductive Abreast {α β : Type} (rel : α → β → Prop) : List α → List β → Prop
  | nil : Abreast rel [] []
  | cons {a : α} {b : β} {as : List α} {bs : List β} (first : rel a b)
      (rest : Abreast rel as bs) : Abreast rel (a :: as) (b :: bs)

theorem Abreast.map {α β α' β' : Type} {rel : α → β → Prop} {rel' : α' → β' → Prop} {f : α → α'}
    {g : β → β'} {as : List α} {bs : List β} (h : Abreast rel as bs)
    (hrel : ∀ {a b}, rel a b → rel' (f a) (g b)) : Abreast rel' (as.map f) (bs.map g) := by
  induction h with
  | nil => exact .nil
  | cons first _ ih => exact .cons (hrel first) ih

theorem Abreast.map_eq {α β : Type} {rel : α → β → Prop} {f : α → β} {as : List α} {bs : List β}
    (h : Abreast rel as bs) (hrel : ∀ {a b}, rel a b → f a = b) : as.map f = bs := by
  induction h with
  | nil => rfl
  | cons first _ ih => rw [List.map_cons, hrel first, ih]

theorem Abreast.exists_of_mem {α β : Type} {rel : α → β → Prop} {as : List α} {bs : List β}
    (h : Abreast rel as bs) {b : β} (hb : b ∈ bs) : ∃ a, rel a b := by
  induction h with
  | nil => cases hb
  | @cons a _ _ _ first _ ih =>
      rcases List.mem_cons.mp hb with rfl | hlater
      · exact ⟨a, first⟩
      · exact ih hlater

/-- Two records of the same, of decoders that correspond. -/
structure RecordAlike (L : Likeness c₁ c₂) (r₁ : Record c₁) (r₂ : Record c₂) : Prop where
  before : L.Shifted 0 r₁.before r₂.before
  after : L.Shifted 0 r₁.after r₂.after
  events : r₁.events = r₂.events
  chunks : r₁.chunks = r₂.chunks
  startsOver : r₁.startsOver = r₂.startsOver

/-- Two reports of the same, of decoders that correspond. -/
structure ReportAlike (L : Likeness c₁ c₂) (r₁ : Report c₁ σ) (r₂ : Report c₂ σ) : Prop where
  record : RecordAlike L r₁.toRecord r₂.toRecord
  answer : r₁.answer = r₂.answer
  left : r₁.left = r₂.left
  sink : r₁.sink = r₂.sink

variable {L : Likeness c₁ c₂} {d₁ : Decoder c₁} {d₂ : Decoder c₂}

/-- What two calls without a lead left behind is the same. -/
theorem LoggedAlike.of_zero {ι σ₁ σ₂ α : Type} {P : σ₁ → σ₂ → Prop} {f : α → α}
    {q₁ : Logged Event (Turn c₁ ι σ₁ α)} {q₂ : Logged Event (Turn c₂ ι σ₂ α)}
    (h : LoggedAlike 0 (L.TurnShifted P f 0) q₁ q₂) (hf : ∀ a, f a = a) :
    L.Shifted 0 q₁.result.decoder q₂.result.decoder ∧ q₁.events = q₂.events ∧
      q₁.result.result = q₂.result.result := by
  refine ⟨?_, ?_, ?_⟩
  · have hdecoder := h.result.decoder
    rwa [shiftAfter_zero] at hdecoder
  · have hevents := h.events
    rwa [map_shift_zero] at hevents
  · have hresult := h.result.result
    rwa [shiftResult_zero hf] at hresult

theorem ofTurn_alike {ι α : Type} [Sink σ] (hd : L.Shifted 0 d₁ d₂)
    {q₁ : Logged Event (Turn c₁ ι (Recorder σ) α)} {q₂ : Logged Event (Turn c₂ ι (Recorder σ) α)}
    (h : LoggedAlike 0 (L.TurnShifted Eq id 0) q₁ q₂) :
    RecordAlike L (.ofTurn d₁ q₁) (.ofTurn d₂ q₂) := by
  rcases h.of_zero (fun _ => rfl) with ⟨hafter, hevents, hresult⟩
  refine ⟨hd, hafter, hevents, ?_, ?_⟩
  · exact congrArg Recorder.handed h.result.sink
  · exact congrArg startedOver hresult

theorem ofOutcome_alike (hd : L.Shifted 0 d₁ d₂) {o₁ : Outcome c₁ Unit} {o₂ : Outcome c₂ Unit}
    (h : L.OutcomeShifted id 0 o₁ o₂) {startsOver₁ startsOver₂ : Bool}
    (hover : startsOver₁ = startsOver₂) :
    RecordAlike L (.ofOutcome d₁ o₁ startsOver₁) (.ofOutcome d₂ o₂ startsOver₂) := by
  refine ⟨hd, ?_, ?_, rfl, hover⟩
  · have hafter := h.decoder
    rwa [shiftAfter_zero] at hafter
  · have hevents := h.events
    rwa [map_shift_zero] at hevents

/-- A reset puts decoders that correspond on a par, as far as a report goes. -/
theorem Likeness.Shifted.reset_outcome (h : L.Shifted 0 d₁ d₂) :
    L.OutcomeShifted id 0 d₁.reset d₂.reset := by
  rcases h.reset with ⟨hdecoder, hevents, hresult⟩
  refine ⟨?_, ?_, ?_⟩
  · rwa [shiftAfter_zero]
  · rw [map_shift_zero, hevents]
  · rw [shiftResult_zero (f := id) fun _ => rfl, hresult]

variable [Sink σ]

/-- Calls on decoders that correspond have the same reports. -/
theorem report_alike (fuel : Nat) (hd : L.Shifted 0 d₁ d₂) (call : Call σ) :
    Matched (ReportAlike L) (call.report fuel d₁) (call.report fuel d₂) := by
  have houtcome : ∀ {o₁ : Outcome c₁ Unit} {o₂ : Outcome c₂ Unit}, L.OutcomeShifted id 0 o₁ o₂ →
      o₁.result = o₂.result := by
    intro o₁ o₂ ho
    have hresult := ho.result
    rwa [shiftResult_zero (f := id) fun _ => rfl] at hresult
  cases call with
  | push input sink =>
      have hpush : Agree 0 Logged.events (LoggedAlike 0 (L.TurnShifted Eq id 0))
          (d₁.push fuel input (Recorder.ofSink sink)) (d₂.push fuel input (Recorder.ofSink sink)) :=
        Likeness.push_alike Likeness.serves_eq Likeness.takes_eq fuel ⟨hd, rfl, rfl⟩
      refine hpush.matched.map fun q₁ q₂ hq => ⟨ofTurn_alike hd hq, ?_, ?_, ?_⟩
      · rw [(hq.of_zero fun _ => rfl).2.2]
      · rw [hq.result.input]
      · rw [hq.result.sink]
  | next input =>
      have hnext : Agree 0 Logged.events
          (LoggedAlike 0 (L.TurnShifted Eq (Progress.shift 0) 0)) (d₁.next fuel input)
          (d₂.next fuel input) :=
        Likeness.step_alike Likeness.serves_eq fuel ⟨hd, rfl, rfl⟩
      refine hnext.matched.map fun q₁ q₂ hq => ?_
      rcases hq.of_zero Progress.shift_zero with ⟨hafter, hevents, hresult⟩
      refine ⟨⟨hd, hafter, hevents, ?_, ?_⟩, ?_, ?_, rfl⟩
      · exact congrArg answeredChunks hresult
      · exact congrArg startedOver hresult
      · rw [hresult]
      · rw [hq.result.input]
  | readAll reader sink =>
      have hread : Agree 0 Logged.events (LoggedAlike 0 (L.TurnShifted Eq id 0))
          (d₁.readAll fuel reader (Recorder.ofSink sink))
          (d₂.readAll fuel reader (Recorder.ofSink sink)) :=
        Likeness.readAll_alike Likeness.serves_eq Likeness.takes_eq fuel hd reader rfl
      refine hread.matched.map fun q₁ q₂ hq => ⟨ofTurn_alike hd hq, ?_, ?_, ?_⟩
      · rw [(hq.of_zero fun _ => rfl).2.2]
      · rw [hq.result.input]
      · rw [hq.result.sink]
  | finish =>
      have hresult := houtcome hd.finish
      refine .ok ⟨ofOutcome_alike hd hd.finish (by rw [hresult]), ?_, rfl, rfl⟩
      dsimp only
      rw [hresult]
  | reset =>
      refine .ok ⟨ofOutcome_alike hd hd.reset_outcome rfl, ?_, rfl, rfl⟩
      dsimp only
      rw [houtcome hd.reset_outcome]
  | release => exact .ok ⟨ofOutcome_alike hd hd.release rfl, rfl, rfl, rfl⟩
  | setBufferSize size => exact .ok ⟨⟨hd, hd.resized size, rfl, rfl, rfl⟩, rfl, rfl, rfl⟩
  | setMultipleMembers multiple =>
      refine .ok ⟨⟨hd, ?_, rfl, rfl, rfl⟩, rfl, rfl, rfl⟩
      exact ⟨hd.memory, hd.session, hd.outputOffset, hd.memberBase, hd.consumed, hd.finished,
        hd.bufferSize, rfl⟩

/-- Decoders that correspond have the same reports, call after call. -/
theorem reports_alike (fuel : Nat) (calls : List (Call σ)) {d₁ : Decoder c₁} {d₂ : Decoder c₂}
    (hd : L.Shifted 0 d₁ d₂) :
    Matched (Abreast (ReportAlike L)) (reports fuel d₁ calls) (reports fuel d₂ calls) := by
  induction calls generalizing d₁ d₂ with
  | nil => exact .ok .nil
  | cons call rest ih =>
      refine (report_alike fuel hd call).bind fun r₁ r₂ hr => ?_
      exact (ih hr.record.after).map fun _ _ hlater => .cons hr hlater

theorem history_alike (fuel : Nat) (calls : List (Call σ)) (hd : L.Shifted 0 d₁ d₂) :
    Matched (Abreast (RecordAlike L)) (history fuel d₁ calls) (history fuel d₂ calls) := by
  rw [history_eq_reports, history_eq_reports]
  exact (reports_alike fuel calls hd).map fun _ _ hrs => hrs.map ReportAlike.record

end Alike

/-! ## Recording and observing change nothing -/

section Transparency

/-- Recording what a sink is called with changes nothing: a push does to the sink what it
    would have done without the record. -/
theorem push_recorded [Sink σ] {fuel : Nat} {d : Decoder c} {input : List UInt8} {sink : σ}
    {r : Logged Event (Turn c Cursor σ Bool)} (h : d.push fuel input sink = .ok r) :
    ∃ r', d.push fuel input (Recorder.ofSink sink) = .ok r' ∧ r'.events = r.events ∧
      r'.result.decoder = r.result.decoder ∧ r'.result.input = r.result.input ∧
      r'.result.sink.inner = r.result.sink ∧ r'.result.result = r.result.result := by
  have hserve :
      Likeness.ServesAlike (fun (r : Recorder σ) k => r.inner = k) 0 Sink.alloc Sink.alloc := by
    rintro k₁ k₂ rfl offset size
    exact ⟨rfl, rfl⟩
  have htake : Likeness.TakesAlike (fun (r : Recorder σ) k => r.inner = k) 0 := by
    rintro k₁ k₂ rfl chunk
    exact ⟨rfl, rfl⟩
  have hagree : Agree 0 Logged.events
      (LoggedAlike 0 ((Likeness.refl c).TurnShifted (fun (r : Recorder σ) k => r.inner = k) id 0))
      (d.push fuel input (Recorder.ofSink sink)) (d.push fuel input sink) :=
    Likeness.push_alike hserve htake fuel ⟨Likeness.shifted_refl_iff.mpr rfl, rfl, rfl⟩
  rw [h] at hagree
  rcases hagree.ok_of_zero with ⟨r', hr', halike⟩
  rcases halike.eq_of_refl fun _ => rfl with ⟨hevents, hdecoder, hinput, hresult⟩
  exact ⟨r', hr', hevents, hdecoder, hinput, halike.result.sink, hresult⟩

end Transparency

/-- The record of a call, without what was observed. -/
def Record.plain (r : Record c.observed) : Record c :=
  ⟨r.before.plain, r.after.plain, r.events, r.chunks, r.startsOver⟩

section Observed

theorem plain_of_alike {r : Record c.observed} {r' : Record c} (h : RecordAlike (observing c) r r') :
    r.plain = r' := by
  rcases r' with ⟨before, after, events, chunks, startsOver⟩
  rw [Record.plain, shifted_plain_iff.mp h.before, shifted_plain_iff.mp h.after, h.events, h.chunks,
    h.startsOver]

/-- Observation changes nothing: a decoder under observation has the same history. -/
theorem history_plain [Sink σ] {fuel : Nat} {calls : List (Call σ)} {d : Decoder c.observed}
    {records : List (Record c)} (h : history fuel d.plain calls = .ok records) :
    ∃ observed, history fuel d calls = .ok observed ∧ observed.map Record.plain = records := by
  have hd : (observing c).Shifted 0 d d.plain := shifted_plain_iff.mpr rfl
  have halike := history_alike fuel calls hd
  rw [h] at halike
  rcases halike.of_ok with ⟨observed, hobserved, hrecords⟩
  exact ⟨observed, hobserved, hrecords.map_eq plain_of_alike⟩

end Observed

end Decompression
