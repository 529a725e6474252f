import Decompression.Proofs.Failure

/-!
# What a Push Says to Its Sink

A push asks its sink for a buffer before it is known whether anything will be written to
it, and hands over a chunk only after one was. A sink that lends out buffers of a pool, or
that places them by their offsets, has to know what each of its buffers was for. So what
is said here is about each single call: `Disciplined` speaks of every place in the list of
calls, with the calls before it and those after it.

A buffer is asked for at some moment of the push, and the calls after it depend on what
came of it: `Used` lists the five possibilities. Only one of them has a chunk, and only
one other has any further call.

The list of calls is put together round by round. `Exchange` is what one round of a push
has to say, and `Dialogue` what is said from one moment of it on, to its end or as far as
another moment; a push that does not return has moments as well.

## Main definitions

* `Mute`: The moments at which no session can be run.
* `Asking`: The moments at which a buffer is asked for.
* `Used`: What comes of a buffer, and what is said after it was asked for.
* `Exchange`, `Dialogue`: What is said in a round, and in several.
* `Disciplined`: What holds of all the calls of a push.

## Theorems

* `exchange_of_drive`: What one round has to say.
* `Dialogue.asks`, `Dialogue.hands`, `Dialogue.mute`: Buffers, chunks and silence, place by
  place.
* `push_disciplined`: The calls of every push are disciplined, as far as it comes.
-/

namespace Decompression

open Decoder Loop

variable {S M : Type} {c : Codec S M} {σ : Type} [Sink σ]

/-! ## Moments of a push -/

/-- No session can be run: the stream is over and there is no more input, or the session of a
    further member cannot be started. -/
inductive Mute (w : Scene c Cursor (Recorder σ)) : Prop
  | spent (finished : w.decoder.finished = true) (exhausted : w.input.rest = [])
  | refused {cause : IoError} {memory : M} (finished : w.decoder.finished = true)
      (more : w.input.rest ≠ []) (multiple : w.decoder.multipleMembers = true)
      (start : c.start w.decoder.retire = (.error cause, memory))

/-- A buffer of this size is asked for at this offset: the decoder is ready, it has been entered,
    and these are its offset and the size of its buffers. -/
structure Asking (w : Scene c Cursor (Recorder σ)) (offset size : Nat) : Prop where
  ready : w.decoder.isReady = true
  enter : ∃ events entered, Entered w.decoder w.input events entered
  offset : offset = w.decoder.outputOffset
  size : size = w.decoder.bufferSize.toNat

omit [Sink σ] in
theorem Asking.not_mute {w : Scene c Cursor (Recorder σ)} {offset size : Nat}
    (h : Asking w offset size) : ¬ Mute w := by
  rcases h.enter with ⟨events, entered, henter⟩
  rintro (⟨_, hexhausted⟩ | ⟨hfinished, _, hmultiple, hstart⟩)
  · cases henter with
    | stay hstay => exact (hstay ‹_›).1 hexhausted
    | member _ hmore _ _ => exact hmore hexhausted
  · cases henter with
    | stay hstay =>
        rw [(hstay hfinished).2] at hmultiple
        cases hmultiple
    | member _ _ _ hstart' => cases hstart.symm.trans hstart'

/-- What is said after a member that ended without output in front of a further one: nothing so
    far, nothing because that one cannot be started, or a buffer is asked for at the same place. -/
inductive Onward (d : Decoder c) (offset size : Nat) :
    List SinkCall → Option (Except DecodeError Bool) → Prop
  | underway : Onward d offset size [] none
  | refused {cause : IoError} {memory : M} (start : c.start d.retire = (.error cause, memory)) :
      Onward d offset size [] (some (.error (.start cause)))
  | asks {s : S} {memory : M} {answer : Except IoError (List UInt8)} {later : List SinkCall}
      {outcome : Option (Except DecodeError Bool)} (start : c.start d.retire = (.ok s, memory)) :
      Onward d offset size (.alloc offset size answer :: later) outcome

/-- What comes of a buffer that was asked for: the calls after that, and the answer of the push if
    it is over. -/
inductive Used (w : Scene c Cursor (Recorder σ)) (offset size : Nat) :
    Except IoError (List UInt8) → List SinkCall → Option (Except DecodeError Bool) → Prop
  -- It was refused, or its size is wrong
  | refused {answer : Except IoError (List UInt8)} {error : DecodeError}
      (refusal : (SinkCall.alloc offset size answer).refusal? = some error) :
      Used w offset size answer [] (some (.error error))
  -- The session failed
  | failed {events : List Event} {entered : Decoder c} {s : S} {buffer : List UInt8}
      {served : Recorder σ} {stepped : Stepped S} {error : StepError}
      (ran : Ran Sink.alloc w.decoder w.input w.sink events entered s buffer served stepped)
      (outcome : stepped.outcome = .error error) :
      Used w offset size (.ok buffer) [] (some (.error (.ofStep error)))
  -- Nothing was written, and the push is over
  | empty {events : List Event} {entered : Decoder c} {s : S} {buffer : List UInt8}
      {served : Recorder σ} {stepped : Stepped S} {status : Status} {ended : Bool}
      (ran : Ran Sink.alloc w.decoder w.input w.sink events entered s buffer served stepped)
      (outcome : stepped.outcome = .ok status) (nothing : stepped.output.front = [])
      (ends : ended = true ↔ status = .streamEnd) :
      Used w offset size (.ok buffer) [] (some (.ok ended))
  -- Nothing was written, the member is over and there is more input
  | passed {events : List Event} {entered : Decoder c} {s : S} {buffer : List UInt8}
      {served : Recorder σ} {stepped : Stepped S} {late : List SinkCall}
      {answer : Option (Except DecodeError Bool)}
      (ran : Ran Sink.alloc w.decoder w.input w.sink events entered s buffer served stepped)
      (outcome : stepped.outcome = .ok .streamEnd) (nothing : stepped.output.front = [])
      (multiple : entered.multipleMembers = true) (more : stepped.input.rest ≠ [])
      (onward : Onward (entered.afterStep w.input stepped .streamEnd) offset size late answer) :
      Used w offset size (.ok buffer) late answer
  -- Something was written, and it is handed over; if it is refused, that is all
  | chunk {events : List Event} {entered : Decoder c} {s : S} {buffer : List UInt8}
      {served : Recorder σ} {stepped : Stepped S} {status : Status} {taken : Except IoError Unit}
      {later : List SinkCall} {answer : Option (Except DecodeError Bool)}
      (ran : Ran Sink.alloc w.decoder w.input w.sink events entered s buffer served stepped)
      (outcome : stepped.outcome = .ok status) (something : stepped.output.front ≠ [])
      (refusal : ∀ cause, taken = .error cause →
        later = [] ∧ answer = some (.error (.sink cause))) :
      Used w offset size (.ok buffer) (.push ⟨offset, stepped.output.front⟩ taken :: later) answer

/-! ## One round -/

/-- What one round of a push has to say to its sink. -/
inductive Exchange (w : Scene c Cursor (Recorder σ)) :
    List SinkCall → PushRound c (Recorder σ) → Prop
  | spent {events : List Event} {turn : Turn c Cursor (Recorder σ) Bool}
      (finished : w.decoder.finished = true) (exhausted : w.input.rest = []) :
      Exchange w [] (.done events turn)
  | refused {events : List Event} {turn : Turn c Cursor (Recorder σ) Bool} {cause : IoError}
      {memory : M} (finished : w.decoder.finished = true) (more : w.input.rest ≠ [])
      (multiple : w.decoder.multipleMembers = true)
      (start : c.start w.decoder.retire = (.error cause, memory))
      (result : turn.result = .error (.start cause)) : Exchange w [] (.done events turn)
  -- A buffer for which there was no use
  | vain {events : List Event} {turn : Turn c Cursor (Recorder σ) Bool} {offset size : Nat}
      {answer : Except IoError (List UInt8)} (asking : Asking w offset size)
      (used : Used w offset size answer [] (some turn.result)) :
      Exchange w [.alloc offset size answer] (.done events turn)
  -- A buffer for which there was no use, but a further member follows
  | passed {events noted : List Event} {entered : Decoder c} {s : S} {buffer : List UInt8}
      {served : Recorder σ} {stepped : Stepped S} {offset size : Nat}
      (asking : Asking w offset size)
      (ran : Ran Sink.alloc w.decoder w.input w.sink events entered s buffer served stepped)
      (outcome : stepped.outcome = .ok .streamEnd) (nothing : stepped.output.front = [])
      (multiple : entered.multipleMembers = true) (more : stepped.input.rest ≠ []) :
      Exchange w [.alloc offset size (.ok buffer)]
        (.again noted ⟨entered.afterStep w.input stepped .streamEnd, stepped.input, served⟩)
  -- A buffer and the chunk in it
  | chunk {events : List Event} {entered : Decoder c} {s : S} {buffer : List UInt8}
      {served : Recorder σ} {stepped : Stepped S} {status : Status} {taken : Except IoError Unit}
      {offset size : Nat} {r : PushRound c (Recorder σ)} (asking : Asking w offset size)
      (ran : Ran Sink.alloc w.decoder w.input w.sink events entered s buffer served stepped)
      (outcome : stepped.outcome = .ok status) (something : stepped.output.front ≠ [])
      (refusal : ∀ cause, taken = .error cause →
        r.All (fun _ => False) fun turn => turn.result = .error (.sink cause)) :
      Exchange w [.alloc offset size (.ok buffer), .push ⟨offset, stepped.output.front⟩ taken] r

/-- After a round these calls have been added to those before it. -/
def Adds (w : Scene c Cursor (Recorder σ)) (calls : List SinkCall)
    (r : PushRound c (Recorder σ)) : Prop :=
  r.All (fun next => next.sink.calls = w.sink.calls ++ calls)
    fun turn => turn.sink.calls = w.sink.calls ++ calls

variable {w : Scene c Cursor (Recorder σ)}

omit [Sink σ] in
theorem asking_of_entered (hready : w.decoder.session ≠ none) {events : List Event}
    {entered : Decoder c} (h : Entered w.decoder w.input events entered) :
    Asking w entered.outputOffset entered.bufferSize.toNat where
  ready := isReady_iff.mpr hready
  enter := ⟨events, entered, h⟩
  offset := (entered_config h).1
  size := by rw [(entered_config h).2.2]

/-- What one round has to say. -/
theorem exchange_of_drive (hready : w.decoder.session ≠ none) {r : PushRound c (Recorder σ)}
    (h : drive w = .ok r) : ∃ calls, Exchange w calls r ∧ Adds w calls r := by
  rcases drive_cases h with ⟨events, next, hattempt, rfl⟩ | ⟨events, turn, hattempt, rfl⟩
  · have hcases := attempted_of_eq hready hattempt
    cases hcases with
    | passed hran _ houtcome _ hnothing hfurther =>
        rcases hasFurtherMember_iff.mp hfurther with ⟨hmultiple, hmore⟩
        exact ⟨_, .passed (asking_of_entered hready hran.enter) hran houtcome hnothing hmultiple
          hmore, Recorder.calls_alloc hran.serve⟩
  · have hcases := attempted_of_eq hready hattempt
    cases hcases with
    | spent hfinished hexhausted =>
        exact ⟨[], .spent hfinished hexhausted, (List.append_nil _).symm⟩
    | refused hfinished hmore hmultiple hstart =>
        exact ⟨[], .refused hfinished hmore hmultiple hstart rfl, (List.append_nil _).symm⟩
    | unserved henter hserve =>
        rcases refusal_of_request hserve with ⟨answer, hcalls, hrefusal⟩
        exact ⟨_, .vain (asking_of_entered hready henter) (.refused hrefusal), hcalls⟩
    | failed hran _ houtcome =>
        exact ⟨_, .vain (asking_of_entered hready hran.enter) (.failed hran houtcome),
          Recorder.calls_alloc hran.serve⟩
    | starved hran _ houtcome _ hnothing =>
        refine ⟨_, .vain (asking_of_entered hready hran.enter) (.empty hran houtcome hnothing ?_),
          Recorder.calls_alloc hran.serve⟩
        exact ⟨fun hc => Bool.noConfusion hc, fun hc => Status.noConfusion hc⟩
    | closed hran _ houtcome _ hnothing _ =>
        exact ⟨_, .vain (asking_of_entered hready hran.enter)
          (.empty hran houtcome hnothing ⟨fun _ => rfl, fun _ => rfl⟩),
          Recorder.calls_alloc hran.serve⟩
    | @filled _ entered _ buffer served stepped status hran _ houtcome _ hsomething _ _ =>
        rw [takeProgress_ofChunk]
        rcases hpush : Sink.push served ⟨entered.outputOffset, stepped.output.front⟩ with
          ⟨taken, sink'⟩
        have hcalls : sink'.calls = w.sink.calls ++
            [.alloc entered.outputOffset entered.bufferSize.toNat (.ok buffer),
              .push ⟨entered.outputOffset, stepped.output.front⟩ taken] := by
          rw [Recorder.calls_push hpush, Recorder.calls_alloc hran.serve, List.append_assoc]
          rfl
        refine ⟨[.alloc _ _ (.ok buffer), .push _ taken],
          .chunk (asking_of_entered hready hran.enter) hran houtcome hsomething
            fun cause hcause => ?_, ?_⟩
        · rw [deliverThen_of_error (hcause ▸ hpush)]
          rfl
        · cases taken with
          | error cause =>
              rw [deliverThen_of_error hpush]
              exact hcalls
          | ok _ =>
              rw [deliverThen_of_ok hpush]
              cases entered.isLast stepped.input status with
              | false => exact hcalls
              | true => exact hcalls

/-! ## Several rounds -/

/-- What is said from a moment of a push on: as far as another moment, or up to the end of the push
    and its answer. -/
inductive Dialogue :
    Scene c Cursor (Recorder σ) → List SinkCall → Option (Except DecodeError Bool) → Prop
  | here {w : Scene c Cursor (Recorder σ)} : Dialogue w [] none
  | last {w : Scene c Cursor (Recorder σ)} {events : List Event}
      {turn : Turn c Cursor (Recorder σ) Bool} {calls : List SinkCall}
      (round : drive w = .ok (.done events turn)) (exchange : Exchange w calls (.done events turn))
      (adds : turn.sink.calls = w.sink.calls ++ calls) : Dialogue w calls (some turn.result)
  | again {w next : Scene c Cursor (Recorder σ)} {events : List Event}
      {calls later : List SinkCall} {outcome : Option (Except DecodeError Bool)}
      (round : drive w = .ok (.again events next))
      (exchange : Exchange w calls (.again events next))
      (adds : next.sink.calls = w.sink.calls ++ calls) (rest : Dialogue next later outcome) :
      Dialogue w (calls ++ later) outcome

/-- From one moment of a push to another. -/
theorem dialogue_of_leads {w' : Scene c Cursor (Recorder σ)} {events : List Event}
    (h : Leads (fun _ => drive) w events w') (hready : w.decoder.session ≠ none) :
    ∃ calls, Dialogue w calls none ∧ w'.sink.calls = w.sink.calls ++ calls := by
  induction h with
  | here => exact ⟨[], .here, (List.append_nil _).symm⟩
  | @again w next _ _ _ first _ ih =>
      have hround := first.of_const
      rcases exchange_of_drive hready hround with ⟨calls, hexchange, hadds⟩
      have hnext : next.sink.calls = w.sink.calls ++ calls := hadds
      rcases ih (drive_ready hready hround) with ⟨later, hdialogue, hlater⟩
      refine ⟨calls ++ later, .again hround hexchange hnext hdialogue, ?_⟩
      rw [hlater, hnext, List.append_assoc]

/-- From one moment of a push to its end. -/
theorem dialogue_of_ends {r : Logged Event (Turn c Cursor (Recorder σ) Bool)}
    (h : Ends (fun _ => drive) w (.ok r)) (hready : w.decoder.session ≠ none) :
    ∃ calls, Dialogue w calls (some r.result.result) ∧
      r.result.sink.calls = w.sink.calls ++ calls := by
  induction h using Ends.ok_induction with
  | done hs =>
      have hround := hs.of_const
      rcases exchange_of_drive hready hround with ⟨calls, hexchange, hadds⟩
      exact ⟨calls, .last hround hexchange hadds, hadds⟩
  | @again w next _ _ hs _ ih =>
      have hround := hs.of_const
      rcases exchange_of_drive hready hround with ⟨calls, hexchange, hadds⟩
      have hnext : next.sink.calls = w.sink.calls ++ calls := hadds
      rcases ih (drive_ready hready hround) with ⟨later, hdialogue, hlater⟩
      refine ⟨calls ++ later, .again hround hexchange hnext hdialogue, ?_⟩
      rw [hlater, hnext, List.append_assoc]

/-- What is said after a member that ended without output in front of a further one. -/
theorem Dialogue.onward {calls : List SinkCall} {outcome : Option (Except DecodeError Bool)}
    (h : Dialogue w calls outcome) (hfinished : w.decoder.finished = true)
    (hmultiple : w.decoder.multipleMembers = true) (hmore : w.input.rest ≠ []) :
    Onward w.decoder w.decoder.outputOffset w.decoder.bufferSize.toNat calls outcome := by
  have hasks : ∀ {offset size : Nat} {answer : Except IoError (List UInt8)} {later : List SinkCall}
      {outcome : Option (Except DecodeError Bool)}, Asking w offset size →
      Onward w.decoder w.decoder.outputOffset w.decoder.bufferSize.toNat
        (.alloc offset size answer :: later) outcome := by
    intro offset size answer later outcome hasking
    rcases hasking with ⟨_, ⟨events, entered, henter⟩, rfl, rfl⟩
    cases henter with
    | stay hstay =>
        rw [(hstay hfinished).2] at hmultiple
        cases hmultiple
    | member _ _ _ hstart => exact .asks hstart
  cases h with
  | here => exact .underway
  | last _ hexchange _ =>
      cases hexchange with
      | spent _ hexhausted => exact absurd hexhausted hmore
      | refused _ _ _ hstart hresult =>
          rw [hresult]
          exact .refused hstart
      | vain hasking _ => exact hasks hasking
      | chunk hasking _ _ _ _ => exact hasks hasking
  | again _ hexchange _ _ =>
      cases hexchange with
      | passed hasking _ _ _ _ _ => exact hasks hasking
      | chunk hasking _ _ _ _ => exact hasks hasking

/-- What is said after a round, and the answer of the push if that is told. -/
def Follows (later : List SinkCall) (outcome : Option (Except DecodeError Bool)) :
    PushRound c (Recorder σ) → Prop
  | .done _ turn => later = [] ∧ outcome = some turn.result
  | .again _ next => Dialogue next later outcome

/-! ## Place by place -/

-- A place in two lists one after the other is in the first or in the second.
theorem place_append {α : Type} {as bs early late : List α} {a : α}
    (h : as ++ bs = early ++ a :: late) :
    (∃ mid, as = early ++ a :: mid ∧ late = mid ++ bs) ∨
      ∃ mid, early = as ++ mid ∧ bs = mid ++ a :: late := by
  rcases List.append_eq_append_iff.mp h with ⟨mid, hearly, hbs⟩ | ⟨mid, has, hlate⟩
  · exact Or.inr ⟨mid, hearly, hbs⟩
  · cases mid with
    | nil =>
        refine Or.inr ⟨[], ?_, hlate.symm⟩
        rw [has, List.append_nil, List.append_nil]
    | cons b mid =>
        cases hlate
        exact Or.inl ⟨mid, has, rfl⟩

theorem place_nil {α : Type} {early late : List α} {a : α} : [] ≠ early ++ a :: late :=
  (List.append_ne_nil_of_right_ne_nil early (List.cons_ne_nil a late)).symm

theorem place_single {α : Type} {early late : List α} {a b : α} (h : [b] = early ++ a :: late) :
    early = [] ∧ a = b ∧ late = [] := by
  rcases List.cons_eq_append_iff.mp h with ⟨rfl, hlate⟩ | ⟨mid, rfl, hmid⟩
  · cases hlate
    exact ⟨rfl, rfl, rfl⟩
  · exact absurd hmid place_nil

theorem place_pair {α : Type} {early late : List α} {a b b' : α}
    (h : [b, b'] = early ++ a :: late) :
    (early = [] ∧ a = b ∧ late = [b']) ∨ (early = [b] ∧ a = b' ∧ late = []) := by
  rcases List.cons_eq_append_iff.mp h with ⟨rfl, hlate⟩ | ⟨mid, rfl, hmid⟩
  · cases hlate
    exact Or.inl ⟨rfl, rfl, rfl⟩
  · rcases place_single hmid with ⟨rfl, rfl, rfl⟩
    exact Or.inr ⟨rfl, rfl, rfl⟩

section Places

variable {calls early late rest : List SinkCall} {outcome : Option (Except DecodeError Bool)}

/-- A buffer is asked for with the first call of a round. -/
theorem Exchange.asks {r : PushRound c (Recorder σ)} {offset size : Nat}
    {answer : Except IoError (List UInt8)} (h : Exchange w calls r) (hrest : Follows rest outcome r)
    (hcalls : calls = early ++ .alloc offset size answer :: late) :
    early = [] ∧ Asking w offset size ∧ Used w offset size answer (late ++ rest) outcome := by
  cases h with
  | spent _ _ => exact absurd hcalls place_nil
  | refused _ _ _ _ _ => exact absurd hcalls place_nil
  | vain hasking hused =>
      rcases hrest with ⟨rfl, rfl⟩
      rcases place_single hcalls with ⟨rfl, hcall, rfl⟩
      cases hcall
      exact ⟨rfl, hasking, hused⟩
  | passed hasking hran houtcome hnothing hmultiple hmore =>
      rcases place_single hcalls with ⟨rfl, hcall, rfl⟩
      cases hcall
      refine ⟨rfl, hasking, .passed hran houtcome hnothing hmultiple hmore ?_⟩
      rcases entered_config hran.enter with ⟨hoffset, _, hsize⟩
      have honward := Dialogue.onward hrest rfl hmultiple hmore
      rw [afterStep_outputOffset, afterStep_bufferSize, hoffset, hsize, ← hasking.offset,
        ← hasking.size] at honward
      exact honward
  | chunk hasking hran houtcome hsomething hrefusal =>
      rcases place_pair hcalls with ⟨rfl, hcall, rfl⟩ | ⟨_, hcall, _⟩
      · cases hcall
        refine ⟨rfl, hasking, .chunk hran houtcome hsomething fun cause hcause => ?_⟩
        have hall := hrefusal cause hcause
        cases r with
        | again _ _ => exact hall.elim
        | done _ turn =>
            rcases hrest with ⟨rfl, rfl⟩
            exact ⟨rfl, congrArg some hall⟩
      · cases hcall

/-- Every buffer is asked for at some moment of the push, and this is what comes of it. -/
theorem Dialogue.asks (h : Dialogue w calls outcome) {offset size : Nat}
    {answer : Except IoError (List UInt8)}
    (hcalls : calls = early ++ .alloc offset size answer :: late) :
    ∃ events w', Leads (fun _ => drive) w events w' ∧ w'.sink.calls = w.sink.calls ++ early ∧
      Asking w' offset size ∧ Used w' offset size answer late outcome := by
  induction h generalizing early with
  | here => exact absurd hcalls place_nil
  | @last w noted turn calls _ hexchange _ =>
      have hfollows : Follows [] (some turn.result) (.done noted turn) := ⟨rfl, rfl⟩
      rcases hexchange.asks hfollows hcalls with ⟨rfl, hasking, hused⟩
      rw [List.append_nil] at hused
      exact ⟨[], w, .here, (List.append_nil _).symm, hasking, hused⟩
  | @again w next _ calls later outcome hround hexchange hadds hrest ih =>
      rcases place_append hcalls with ⟨mid, hmid, rfl⟩ | ⟨mid, rfl, hmid⟩
      · rcases hexchange.asks hrest hmid with ⟨rfl, hasking, hused⟩
        exact ⟨[], w, .here, (List.append_nil _).symm, hasking, hused⟩
      · rcases ih hmid with ⟨events, w', hleads, hearly, hasking, hused⟩
        refine ⟨_, w', .again (settles_of_ok hround) hleads, ?_, hasking, hused⟩
        rw [hearly, hadds, List.append_assoc]

-- The only chunk of a round comes after its only buffer.
theorem Exchange.hands {r : PushRound c (Recorder σ)} {chunk : Chunk}
    {taken : Except IoError Unit} (h : Exchange w calls r)
    (hcalls : calls = early ++ .push chunk taken :: late) :
    ∃ size buffer, early = [.alloc chunk.offset size (.ok buffer)] := by
  cases h with
  | spent _ _ => exact absurd hcalls place_nil
  | refused _ _ _ _ _ => exact absurd hcalls place_nil
  | vain _ _ => rcases place_single hcalls with ⟨_, hcall, _⟩; cases hcall
  | passed _ _ _ _ _ _ => rcases place_single hcalls with ⟨_, hcall, _⟩; cases hcall
  | chunk _ _ _ _ _ =>
      rcases place_pair hcalls with ⟨_, hcall, _⟩ | ⟨rfl, hcall, _⟩
      · cases hcall
      · cases hcall
        exact ⟨_, _, rfl⟩

/-- Every chunk is handed over right after a buffer was asked for at its place. -/
theorem Dialogue.hands (h : Dialogue w calls outcome) {chunk : Chunk}
    {taken : Except IoError Unit} (hcalls : calls = early ++ .push chunk taken :: late) :
    ∃ earlier size buffer, early = earlier ++ [.alloc chunk.offset size (.ok buffer)] := by
  induction h generalizing early with
  | here => exact absurd hcalls place_nil
  | last _ hexchange _ =>
      rcases hexchange.hands hcalls with ⟨size, buffer, hearly⟩
      exact ⟨[], size, buffer, hearly⟩
  | @again _ _ _ calls _ _ _ hexchange _ _ ih =>
      rcases place_append hcalls with ⟨mid, hmid, rfl⟩ | ⟨mid, rfl, hmid⟩
      · rcases hexchange.hands hmid with ⟨size, buffer, hearly⟩
        exact ⟨[], size, buffer, hearly⟩
      · rcases ih hmid with ⟨earlier, size, buffer, rfl⟩
        exact ⟨calls ++ earlier, size, buffer, (List.append_assoc _ _ _).symm⟩

/-- No call is made after a moment at which no session can be run. -/
theorem Dialogue.mute (h : Dialogue w calls outcome) (hready : w.decoder.session ≠ none)
    {events : List Event} {w' : Scene c Cursor (Recorder σ)}
    (hleads : Leads (fun _ => drive) w events w') (hmute : Mute w') :
    w.sink.calls ++ calls <+: w'.sink.calls := by
  have hsilent : ∀ {w : Scene c Cursor (Recorder σ)} {calls : List SinkCall}
      {r : PushRound c (Recorder σ)}, Mute w → Exchange w calls r → calls = [] := by
    intro w calls r hmute hexchange
    cases hexchange with
    | spent _ _ => rfl
    | refused _ _ _ _ _ => rfl
    | vain hasking _ => exact absurd hmute hasking.not_mute
    | passed hasking _ _ _ _ _ => exact absurd hmute hasking.not_mute
    | chunk hasking _ _ _ _ => exact absurd hmute hasking.not_mute
  induction h generalizing events with
  | here =>
      rcases dialogue_of_leads hleads hready with ⟨later, _, hlater⟩
      rw [List.append_nil, hlater]
      exact List.prefix_append _ _
  | @last w _ turn calls hround hexchange _ =>
      cases hleads with
      | here =>
          have hnone : calls = [] := hsilent hmute hexchange
          exact ⟨[], by rw [hnone, List.append_nil, List.append_nil]⟩
      | again first _ => cases hround.symm.trans first.of_const
  | @again w next _ calls later _ hround hexchange hadds hrest ih =>
      cases hleads with
      | here =>
          rw [hsilent hmute hexchange] at hexchange
          cases hexchange
      | again first hlater =>
          cases hround.symm.trans first.of_const
          have hnext := ih (drive_ready hready hround) hlater
          rwa [hadds, List.append_assoc] at hnext

end Places

/-! ## All the calls of a push -/

/-- At this moment a session writes this to the beginning of a buffer. -/
def Fills (w : Scene c Cursor (Recorder σ)) (buffer data : List UInt8) : Prop :=
  ∃ events entered s served stepped status,
    Ran Sink.alloc w.decoder w.input w.sink events entered s buffer served stepped ∧
      stepped.outcome = .ok status ∧ stepped.output.front = data

/-- What holds of the calls that a push makes on its sink, at every place among them: `early` are
    the calls before it, `late` those after it. The push has come to some moment, or to its end and
    this answer. -/
structure Disciplined (d : Decoder c) (input : List UInt8) (sink : σ) (calls : List SinkCall)
    (outcome : Option (Except DecodeError Bool)) : Prop where
  -- Without a session nothing is said
  unready : d.isReady = false → calls = []
  -- Buffers are asked for at moments of the push, and nothing else is done about them
  asks : ∀ {early late : List SinkCall} {offset size : Nat} {answer : Except IoError (List UInt8)},
    calls = early ++ .alloc offset size answer :: late →
    ∃ events w, Leads (fun _ => drive) ⟨d, .ofBytes input, .ofSink sink⟩ events w ∧
      w.sink.calls = early ∧ Asking w offset size ∧ Used w offset size answer late outcome
  -- The offset is that of the first byte not handed over yet, and the size never changes
  places : ∀ {early late : List SinkCall} {offset size : Nat}
    {answer : Except IoError (List UInt8)}, calls = early ++ .alloc offset size answer :: late →
    offset = d.outputOffset + ((early.filterMap SinkCall.chunk?).flatMap Chunk.data).length ∧
      size = d.bufferSize.toNat
  -- A chunk is handed over right after its buffer was asked for, and is the beginning of it
  hands : ∀ {early late : List SinkCall} {chunk : Chunk} {taken : Except IoError Unit},
    calls = early ++ .push chunk taken :: late →
    ∃ earlier buffer, early = earlier ++ [.alloc chunk.offset buffer.length (.ok buffer)] ∧
      ∃ events w, Leads (fun _ => drive) ⟨d, .ofBytes input, .ofSink sink⟩ events w ∧
        w.sink.calls = earlier ∧ Fills w buffer chunk.data
  -- What is refused is the last call, and the push fails for it
  refusals : ∀ {early late : List SinkCall} {call : SinkCall} {error : DecodeError},
    calls = early ++ call :: late → call.refusal? = some error →
    late = [] ∧ outcome = some (.error error)
  -- Where no session can be run, nothing more is said
  silence : d.isReady = true → ∀ {events : List Event} {w : Scene c Cursor (Recorder σ)},
    Leads (fun _ => drive) ⟨d, .ofBytes input, .ofSink sink⟩ events w → Mute w →
    calls <+: w.sink.calls

section Discipline

variable {late : List SinkCall} {outcome : Option (Except DecodeError Bool)} {offset size : Nat}

theorem Asking.buffer_length (h : Asking w offset size) {events : List Event}
    {entered : Decoder c} {s : S} {buffer : List UInt8} {served : Recorder σ} {stepped : Stepped S}
    (hran : Ran Sink.alloc w.decoder w.input w.sink events entered s buffer served stepped) :
    buffer.length = size := by
  rw [hran.size, (entered_config hran.enter).2.2, h.size]

/-- A buffer in which a chunk is handed over. -/
theorem Used.fills (h : Asking w offset size) {buffer : List UInt8} {chunk : Chunk}
    {taken : Except IoError Unit}
    (hused : Used w offset size (.ok buffer) (.push chunk taken :: late) outcome) :
    buffer.length = size ∧ Fills w buffer chunk.data ∧
      ∀ cause, taken = .error cause → late = [] ∧ outcome = some (.error (.sink cause)) := by
  cases hused with
  | passed _ _ _ _ _ honward => cases honward
  | chunk hran houtcome _ hrefusal =>
      exact ⟨h.buffer_length hran, ⟨_, _, _, _, _, _, hran, houtcome, rfl⟩, hrefusal⟩

/-- Whatever comes of a buffer that was refused, nothing is said after that. -/
theorem Used.refusal (h : Asking w offset size) {answer : Except IoError (List UInt8)}
    (hused : Used w offset size answer late outcome) {error : DecodeError}
    (hrefusal : (SinkCall.alloc offset size answer).refusal? = some error) :
    late = [] ∧ outcome = some (.error error) := by
  have hgranted : ∀ {buffer : List UInt8}, buffer.length = size →
      (SinkCall.alloc offset size (.ok buffer)).refusal? = none := fun hsize => if_pos hsize
  cases hused with
  | refused hrefusal' =>
      rw [Option.some.inj (hrefusal'.symm.trans hrefusal)]
      exact ⟨rfl, rfl⟩
  | failed hran _ => cases (hgranted (h.buffer_length hran)).symm.trans hrefusal
  | empty hran _ _ _ => cases (hgranted (h.buffer_length hran)).symm.trans hrefusal
  | passed hran _ _ _ _ _ => cases (hgranted (h.buffer_length hran)).symm.trans hrefusal
  | chunk hran _ _ _ => cases (hgranted (h.buffer_length hran)).symm.trans hrefusal

/-- A push does not change the size of its buffers. -/
theorem size_of_leads {w' : Scene c Cursor (Recorder σ)} {events : List Event}
    (h : Leads (fun _ => drive) w events w') (hready : w.decoder.session ≠ none) :
    w'.decoder.bufferSize = w.decoder.bufferSize := by
  refine (h.keeps (I := fun next => next.decoder.session ≠ none ∧
    next.decoder.bufferSize = w.decoder.bufferSize) (fun {next _ _} hs hround => ?_)
    ⟨hready, rfl⟩).2
  refine ⟨drive_ready hs.1 hround.of_const, ?_⟩
  have hgoes := goes_of_settles hs.1 hround fun events turn hr => by cases hr
  cases hgoes with
  | passed went _ _ =>
      rw [afterStep_bufferSize, (entered_config went.ran.enter).2.2, hs.2]
  | filled went _ _ _ _ _ =>
      dsimp only
      rw [afterStep_bufferSize, (entered_config went.ran.enter).2.2, hs.2]

/-- The calls from the first moment of a push on are disciplined. -/
theorem disciplined_of_dialogue {d : Decoder c} {input : List UInt8} {sink : σ}
    {calls : List SinkCall}
    (h : Dialogue ⟨d, .ofBytes input, .ofSink sink⟩ calls outcome) (hready : d.session ≠ none) :
    Disciplined d input sink calls outcome where
  unready hunready := absurd (isReady_iff.mpr hready) (Bool.not_eq_true _ ▸ hunready)
  asks hcalls := h.asks hcalls
  places {early _ _ _ _} hcalls := by
    rcases h.asks hcalls with ⟨events, w, hleads, hearly, hasking, _⟩
    have halong := along_of_leads hleads (along_ofSink hready sink)
    have hcalls : w.sink.calls = early := hearly
    rw [hasking.offset, hasking.size, size_of_leads hleads hready, ← hcalls]
    exact ⟨halong.offset, rfl⟩
  hands {_ _ chunk taken} hcalls := by
    rcases h.hands hcalls with ⟨earlier, size, buffer, rfl⟩
    rw [List.append_assoc] at hcalls
    rcases h.asks hcalls with ⟨events, w, hleads, hearlier, hasking, hused⟩
    rcases hused.fills hasking with ⟨hsize, hfills, _⟩
    exact ⟨earlier, buffer, by rw [hsize], events, w, hleads, hearlier, hfills⟩
  refusals {early late call error} hcalls hrefusal := by
    cases call with
    | alloc offset size answer =>
        rcases h.asks hcalls with ⟨_, _, _, _, hasking, hused⟩
        exact hused.refusal hasking hrefusal
    | push chunk taken =>
        rcases h.hands hcalls with ⟨earlier, size, buffer, rfl⟩
        rw [List.append_assoc] at hcalls
        rcases h.asks hcalls with ⟨_, _, _, _, hasking, hused⟩
        cases taken with
        | ok _ => cases hrefusal
        | error cause =>
            cases hrefusal
            exact (hused.fills hasking).2.2 cause rfl
  silence _ _ _ hleads hmute := h.mute hready hleads hmute

/-- Without a session nothing is said. -/
theorem disciplined_nil {d : Decoder c} (hready : d.session = none) (input : List UInt8) (sink : σ)
    (outcome : Option (Except DecodeError Bool)) : Disciplined d input sink [] outcome where
  unready _ := rfl
  asks hcalls := absurd hcalls place_nil
  places hcalls := absurd hcalls place_nil
  hands hcalls := absurd hcalls place_nil
  refusals hcalls _ := absurd hcalls place_nil
  silence hisReady := absurd hready (isReady_iff.mp hisReady)

end Discipline

/-- The calls that a push makes on its sink are disciplined: those of a push that returns, and those
    up to any moment of a push that need not return. -/
theorem push_disciplined (d : Decoder c) (input : List UInt8) (sink : σ) :
    (∀ {fuel : Nat} {r : Logged Event (Turn c Cursor σ Bool)},
      d.push fuel input sink = .ok r →
      ∃ q, d.push fuel input (Recorder.ofSink sink) = .ok q ∧ q.events = r.events ∧
        q.result.decoder = r.result.decoder ∧ q.result.input = r.result.input ∧
        q.result.sink.inner = r.result.sink ∧ q.result.result = r.result.result ∧
        Disciplined d input sink q.result.sink.calls (some r.result.result)) ∧
    ∀ {events : List Event} {w : Scene c Cursor (Recorder σ)}, d.isReady = true →
      Leads (fun _ => drive) ⟨d, .ofBytes input, .ofSink sink⟩ events w →
      Disciplined d input sink w.sink.calls none := by
  constructor
  · intro fuel r h
    rcases push_recorded h with ⟨q, hq, hevents, hdecoder, hinput, hsink, hresult⟩
    refine ⟨q, hq, hevents, hdecoder, hinput, hsink, hresult, ?_⟩
    rw [← hresult]
    by_cases hready : d.session = none
    · rw [push_of_not_ready hready hq]
      exact disciplined_nil hready input sink _
    · rcases dialogue_of_ends (ends_of_push hready hq) hready with ⟨calls, hdialogue, hcalls⟩
      rw [hcalls]
      exact disciplined_of_dialogue hdialogue hready
  · intro events w hready hleads
    have hsession : d.session ≠ none := isReady_iff.mp hready
    rcases dialogue_of_leads hleads hsession with ⟨calls, hdialogue, hcalls⟩
    rw [hcalls]
    exact disciplined_of_dialogue hdialogue hsession

/-- Two members, the first of them empty: a buffer for each of the two chunks, one that nothing
    comes of before that, and the moment after it. -/
theorem push_disciplined_copier :
    ∃ q : Logged Event (Turn copier Cursor (Recorder (Array Chunk)) Bool),
      (created copier () ⟨2, by decide⟩ true).push 9 [0, 5, 6, 7, 0]
        (Recorder.ofSink (#[] : Array Chunk)) = .ok q ∧
      q.result.sink.calls =
        [.alloc 0 2 (.ok [0, 0]), .alloc 0 2 (.ok [0, 0]), .push ⟨0, [5, 6]⟩ (.ok ()),
          .alloc 2 2 (.ok [0, 0]), .push ⟨2, [7]⟩ (.ok ())] ∧
      Disciplined (created copier () ⟨2, by decide⟩ true) [0, 5, 6, 7, 0] (#[] : Array Chunk)
        q.result.sink.calls (some (.ok true)) ∧
      Disciplined (created copier () ⟨2, by decide⟩ true) [0, 5, 6, 7, 0] (#[] : Array Chunk)
        [.alloc 0 2 (.ok [0, 0])] none := by
  have hall := push_disciplined (created copier () ⟨2, by decide⟩ true) [0, 5, 6, 7, 0]
    (#[] : Array Chunk)
  have hreturns : ∃ r : Logged Event (Turn copier Cursor (Array Chunk) Bool),
      (created copier () ⟨2, by decide⟩ true).push 9 [0, 5, 6, 7, 0] #[] = .ok r ∧
      r.result.result = .ok true := ⟨_, rfl, rfl⟩
  rcases hreturns with ⟨r, hr, hresult⟩
  rcases hall.1 hr with ⟨q, hq, _, _, _, _, _, hdisciplined⟩
  have hcalls : ((created copier () ⟨2, by decide⟩ true).push 9 [0, 5, 6, 7, 0]
      (Recorder.ofSink (#[] : Array Chunk))).map (fun q => q.result.sink.calls) = .ok
      [.alloc 0 2 (.ok [0, 0]), .alloc 0 2 (.ok [0, 0]), .push ⟨0, [5, 6]⟩ (.ok ()),
        .alloc 2 2 (.ok [0, 0]), .push ⟨2, [7]⟩ (.ok ())] := rfl
  rw [hq] at hcalls
  rw [hresult] at hdisciplined
  exact ⟨q, hq, Except.ok.inj hcalls, hdisciplined, hall.2 rfl (.again (settles_of_ok rfl) .here)⟩

end Decompression
