import Decompression.Proofs.Invariant
import Decompression.Proofs.Placement

/-!
# What a Failure Leaves Behind

A call fails for a reason, and the reason decides in what state the decoder is left. Without
a session nothing happens at all. If no session can be started there is none, at the offset
that has been reached. After any other failure the decoder is what it was when it was
created, but for its settings: nothing of the stream that failed is left in it, and it does
from there on what a new decoder does.

`Failed` lists the reasons. Each is a moment in the course of the call: `Comes` holds of the
decoders that a call comes to, `Exhausts` of those with which it comes to the end of its
input. Up to this moment the sink has granted whatever it was asked for.

## Main definitions

* `created`: A new decoder with given settings.
* `Decoder.Lost`: A decoder that could not be given a session.
* `SinkCall.refusal?`: What a sink refused.
* `Call.Comes`, `Call.Exhausts`: The moments of a call.
* `Failed`: Why a call fails, and what it leaves behind.

## Theorems

* `reset_eq_created`: A reset decoder is a new one with the same settings.
* `failed_of_report`: A call that fails does so for one of these reasons.
* `afresh_of_report`: What is left is a new decoder, after all failures but two.
* `failure_contract`: All of it, with what the decoder does afterwards.
-/

namespace Decompression

open Decoder Loop

variable {S M : Type} {c : Codec S M}

/-! ## New decoders -/

/-- A new decoder with these settings. -/
def created (c : Codec S M) (memory : M) (size : BufferSize) (multiple : Bool) : Decoder c :=
  { (create c memory).decoder with bufferSize := size, multipleMembers := multiple }

/-- The decoder has no session, and is where no stream has begun or ended. -/
structure Decoder.Lost (d : Decoder c) (offset : Nat) : Prop where
  ready : d.isReady = false
  finished : d.finished = false
  pending : d.isPending = false
  offset : d.outputOffset = offset

theorem refusedAt_lost (d : Decoder c) (offset : Nat) (memory : M) :
    (d.refusedAt offset memory).Lost offset :=
  ⟨rfl, rfl, rfl, rfl⟩

/-- A reset decoder is a new one with the same settings. -/
theorem reset_eq_created (d : Decoder c) :
    d.reset.decoder = created c d.retire d.bufferSize d.multipleMembers := by
  have hidle : (idle c d.retire).retire = d.retire := rfl
  unfold created create
  rcases reset_cases d with ⟨s, memory, hstart, hreset⟩ | ⟨cause, memory, hstart, hreset⟩
  · rw [hreset, reset_of_ok (hidle.symm ▸ hstart)]
    rfl
  · rw [hreset, reset_of_error (hidle.symm ▸ hstart)]
    rfl

/-- A new decoder can be had by calls, whatever its settings. -/
theorem reachable_created (memory : M) (size : BufferSize) (multiple : Bool) :
    Reachable (created c memory size multiple) := by
  have hreset : Call.reset.run (σ := Array Chunk) 0 (idle c memory) =
      .ok (.ofOutcome (idle c memory) (create c memory) true) := rfl
  have hsize : (Call.setBufferSize size).run (σ := Array Chunk) 0 (create c memory).decoder =
      .ok ⟨_, { (create c memory).decoder with bufferSize := size }, [], [], false⟩ := rfl
  have hmultiple : (Call.setMultipleMembers multiple).run (σ := Array Chunk) 0
      { (create c memory).decoder with bufferSize := size } =
      .ok ⟨_, created c memory size multiple, [], [], false⟩ := rfl
  exact (((Reachable.idle memory).call hreset).call hsize).call hmultiple

theorem created_lost {memory memory' : M} {cause : IoError} (size : BufferSize) (multiple : Bool)
    (h : c.start memory = (.error cause, memory')) : (created c memory size multiple).Lost 0 := by
  have hidle : (idle c memory).retire = memory := rfl
  unfold created create
  rw [reset_of_error (hidle.symm ▸ h)]
  exact ⟨rfl, rfl, rfl, rfl⟩

/-- New decoders of codecs that start the same sessions correspond. -/
theorem created_alike {S₁ M₁ S₂ M₂ : Type} {c₁ : Codec S₁ M₁} {c₂ : Codec S₂ M₂}
    (L : Likeness c₁ c₂) {m₁ : M₁} {m₂ : M₂} (h : L.memory m₁ m₂) (size : BufferSize)
    (multiple : Bool) :
    L.Shifted 0 (created c₁ m₁ size multiple) (created c₂ m₂ size multiple) := by
  have hidle : L.Shifted 0 (idle c₁ m₁) (idle c₂ m₂) := ⟨h, .none, rfl, rfl, rfl, rfl, rfl, rfl⟩
  have hreset := hidle.reset.1
  exact ⟨hreset.memory, hreset.session, hreset.outputOffset, hreset.memberBase, hreset.consumed,
    hreset.finished, rfl, rfl⟩

/-! ## What a sink grants and refuses -/

section Sinks

/-- The failure that a call on a sink amounts to, if it does not grant what it was asked for. -/
def SinkCall.refusal? : SinkCall → Option DecodeError
  | .alloc _ size (.ok buffer) =>
    if buffer.length = size then none else some (.alloc (wrongSize size buffer.length))
  | .alloc _ _ (.error cause) => some (.alloc cause)
  | .push _ (.ok ()) => none
  | .push _ (.error cause) => some (.sink cause)

/-- The sink has granted everything. -/
def Granted (calls : List SinkCall) : Prop :=
  ∀ call ∈ calls, call.refusal? = none

/-- The last call on the sink was refused, and no other one was. -/
inductive Refused (error : DecodeError) : List SinkCall → Prop
  | last {calls : List SinkCall} {call : SinkCall} (granted : Granted calls)
      (refusal : call.refusal? = some error) : Refused error (calls ++ [call])

theorem granted_nil : Granted [] := by
  intro call hmem
  cases hmem

theorem Granted.snoc {calls : List SinkCall} (h : Granted calls) {call : SinkCall}
    (hcall : call.refusal? = none) : Granted (calls ++ [call]) := by
  intro other hmem
  rcases List.mem_append.mp hmem with hin | hlast
  · exact h other hin
  · rw [List.mem_singleton.mp hlast]
    exact hcall

variable {σ : Type} [Sink σ] {sink served : Recorder σ}

theorem granted_alloc (h : Granted sink.calls) {offset size : Nat} {buffer : List UInt8}
    (hserve : Sink.alloc sink offset size = (.ok buffer, served)) (hsize : buffer.length = size) :
    Granted served.calls := by
  rw [Recorder.calls_alloc hserve]
  refine h.snoc ?_
  rw [SinkCall.refusal?, if_pos hsize]

theorem granted_push (h : Granted sink.calls) {chunk : Chunk}
    (hpush : Sink.push sink chunk = (.ok (), served)) : Granted served.calls := by
  rw [Recorder.calls_push hpush]
  exact h.snoc rfl

theorem refused_push (h : Granted sink.calls) {chunk : Chunk} {cause : IoError}
    (hpush : Sink.push sink chunk = (.error cause, served)) :
    Refused (.sink cause) served.calls := by
  rw [Recorder.calls_push hpush]
  exact .last h rfl

/-- A request that fails is one that the sink refused. -/
theorem refusal_of_request {d : Decoder c} {cause : IoError}
    (hrequest : d.request Sink.alloc sink = (.error (.alloc cause), served)) :
    ∃ answer, served.calls = sink.calls ++ [.alloc d.outputOffset d.bufferSize.toNat answer] ∧
      (SinkCall.alloc d.outputOffset d.bufferSize.toNat answer).refusal? =
        some (.alloc cause) := by
  unfold request at hrequest
  rcases halloc : Sink.alloc sink d.outputOffset d.bufferSize.toNat with ⟨answer, served'⟩
  rw [halloc] at hrequest
  refine ⟨answer, ?_⟩
  cases answer with
  | error cause' =>
      cases hrequest
      exact ⟨Recorder.calls_alloc halloc, rfl⟩
  | ok buffer =>
      by_cases hsize : buffer.length = d.bufferSize.toNat
      · simp only [if_pos hsize] at hrequest
        cases hrequest
      · simp only [if_neg hsize] at hrequest
        cases hrequest
        exact ⟨Recorder.calls_alloc halloc, if_neg hsize⟩

theorem refused_request (h : Granted sink.calls) {d : Decoder c} {cause : IoError}
    (hrequest : d.request Sink.alloc sink = (.error (.alloc cause), served)) :
    Refused (.alloc cause) served.calls := by
  rcases refusal_of_request hrequest with ⟨answer, hcalls, hrefusal⟩
  rw [hcalls]
  exact .last h hrefusal

end Sinks

/-! ## The course of a call -/

section Courses

variable {σ : Type} [Sink σ]

/-- In the course of a call a push begins. If it fails at some position in its input, then this
    is what is left of the input of the call. -/
inductive Call.Begins (d : Decoder c) :
    Call σ → Scene c Cursor (Recorder σ) → (Cursor → Remainder) → Prop
  | push (input : List UInt8) (sink : σ) :
      Begins d (.push input sink) ⟨d, .ofBytes input, .ofSink sink⟩ .cursor
  -- Nothing is taken of the buffer that the reader shows
  | readAll {reader : Reader} {sink : σ} {events : List Event} {w : Scene c Reader (Recorder σ)}
      {buffer : List UInt8} (leads : Leads readRound ⟨d, reader, .ofSink sink⟩ events w)
      (fill : w.input.fill = (.ok buffer, w.input)) (more : buffer ≠ []) :
      Begins d (.readAll reader sink) ⟨w.decoder, .ofBytes buffer, w.sink⟩ fun _ => .reader w.input

/-- In the course of a call on `d`, this is the decoder, this is left of the buffer that it works
    on, and this is left of the input of the call. -/
inductive Call.Comes (d : Decoder c) : Call σ → Decoder c → Cursor → Remainder → Prop
  | pushing {call : Call σ} {start w : Scene c Cursor (Recorder σ)} {left : Cursor → Remainder}
      {events : List Event} (begins : call.Begins d start left)
      (leads : Leads (fun _ => drive) start events w) :
      Comes d call w.decoder w.input (left w.input)
  | next {input : Cursor} {events : List Event} {w : Scene c Cursor Unit}
      (leads : Leads (fun _ => attempt zeroAllocator) ⟨d, input, ()⟩ events w) :
      Comes d (.next input) w.decoder w.input (.cursor w.input)

/-- A call comes to the end of its input, and this is the decoder. -/
inductive Call.Exhausts (d : Decoder c) : Call σ → Decoder c → Prop
  | finish : Exhausts d .finish d
  | readAll {reader : Reader} {sink : σ} {events : List Event} {w : Scene c Reader (Recorder σ)}
      (leads : Leads readRound ⟨d, reader, .ofSink sink⟩ events w)
      (fill : w.input.fill = (.ok [], w.input)) : Exhausts d (.readAll reader sink) w.decoder

/-- What a call leaves of its input, and of its sink, if it does nothing. A reader does not show
    again that it was interrupted. -/
def Call.untouched : Call σ → Remainder × Option (Recorder σ)
  | .push input sink => (.cursor (.ofBytes input), some (.ofSink sink))
  | .next input => (.cursor input, none)
  | .readAll reader sink =>
    (.reader ⟨reader.items.dropWhile ReadItem.interrupts⟩, some (.ofSink sink))
  | _ => (.nothing, none)

/-- So many bytes have been handed out. -/
def Report.length (r : Report c σ) : Nat :=
  (r.chunks.flatMap Chunk.data).length

/-- Why a call fails, and what it leaves behind. -/
inductive Failed (d : Decoder c) (call : Call σ) (r : Report c σ) : DecodeError → Prop
  -- There is no session, and nothing happens
  | notReady (unready : d.isReady = false) (decoder : r.after = d)
      (untouched : (r.left, r.sink) = call.untouched) : Failed d call r .notReady
  -- No session could be started for a new stream
  | unstarted {cause : IoError} {memory : M} (reset : call = .reset)
      (start : c.start d.retire = (.error cause, memory)) (lost : r.after.Lost 0) :
      Failed d call r (.start cause)
  -- No session could be started for a further member; nothing is read, and the offset is kept
  | refused {e : Decoder c} {input : Cursor} {cause : IoError} {memory : M}
      (comes : call.Comes d e input r.left) (finished : e.finished = true)
      (more : input.rest ≠ []) (multiple : e.multipleMembers = true)
      (start : c.start e.retire = (.error cause, memory)) (granted : Granted r.calls)
      (lost : r.after.Lost (d.outputOffset + r.length)) : Failed d call r (.start cause)
  -- The session failed
  | decode {e entered : Decoder c} {input : Cursor} {left : Remainder} {events : List Event} {s : S}
      {buffer : List UInt8} {stepped : Stepped S} {error : StepError}
      (comes : call.Comes d e input left) (enter : Entered e input events entered)
      (session : entered.session = some s) (size : buffer.length = entered.bufferSize.toNat)
      (step : c.step s input (.ofBytes buffer) = stepped) (outcome : stepped.outcome = .error error)
      (granted : Granted r.calls) : Failed d call r (.ofStep error)
  -- The sink refused a buffer or a chunk
  | sink {error : DecodeError} (refused : Refused error r.calls) : Failed d call r error
  -- The reader failed
  | input {reader : Reader} {sink : σ} {cause : IoError} {events : List Event}
      {w : Scene c Reader (Recorder σ)} {later : Reader} (reading : call = .readAll reader sink)
      (leads : Leads readRound ⟨d, reader, .ofSink sink⟩ events w)
      (fill : w.input.fill = (.error cause, later)) (left : r.left = .reader later)
      (granted : Granted r.calls) : Failed d call r (.input cause)
  -- The input is over, and the stream is not
  | truncated {e : Decoder c} (exhausts : call.Exhausts d e) (pending : e.isPending = true)
      (offset : e.outputOffset = d.outputOffset + r.length) (granted : Granted r.calls) :
      Failed d call r (.truncated e.outputOffset)

/-! ## Pushes that fail -/

/-- An attempt breaks off. -/
inductive Breaks {τ : Type} (alloc : Allocator τ) (w : Scene c Cursor τ) :
    DecodeError → Turn c Cursor τ Progress → Prop
  | refused {cause : IoError} {memory : M} (finished : w.decoder.finished = true)
      (more : w.input.rest ≠ []) (multiple : w.decoder.multipleMembers = true)
      (start : c.start w.decoder.retire = (.error cause, memory)) :
      Breaks alloc w (.start cause)
        ⟨⟨w.decoder.refusedAt w.decoder.outputOffset memory, w.input, w.sink⟩,
          .error (.start cause)⟩
  | unserved {events : List Event} {entered : Decoder c} {cause : IoError} {served : τ}
      (enter : Entered w.decoder w.input events entered)
      (serve : entered.request alloc w.sink = (.error (.alloc cause), served)) :
      Breaks alloc w (.alloc cause)
        ⟨⟨entered.reset.decoder, w.input, served⟩, .error (.alloc cause)⟩
  | failed {events : List Event} {entered : Decoder c} {s : S} {buffer : List UInt8} {served : τ}
      {stepped : Stepped S} {error : StepError}
      (ran : Ran alloc w.decoder w.input w.sink events entered s buffer served stepped)
      (outcome : stepped.outcome = .error error) :
      Breaks alloc w (.ofStep error)
        ⟨⟨(entered.returnSession stepped.session w.input stepped.input).reset.decoder,
          stepped.input, served⟩, .error (.ofStep error)⟩

omit [Sink σ] in
theorem breaks_of_attempt {alloc : Allocator σ} {w : Scene c Cursor σ}
    (hready : w.decoder.session ≠ none) {events : List Event} {turn : Turn c Cursor σ Progress}
    (h : attempt alloc w = .ok (.done events turn)) {error : DecodeError}
    (herror : turn.result = .error error) : Breaks alloc w error turn := by
  have hcases := attempted_of_eq hready h
  cases hcases with
  | spent _ _ => cases herror
  | refused hfinished hmore hmultiple hstart =>
      cases herror
      exact .refused hfinished hmore hmultiple hstart
  | unserved henter hserve =>
      cases herror
      exact .unserved henter hserve
  | failed hran _ houtcome =>
      cases herror
      exact .failed hran houtcome
  | starved _ _ _ _ _ => cases herror
  | closed _ _ _ _ _ _ => cases herror
  | @filled _ entered _ _ _ stepped status _ _ _ _ _ _ _ =>
      cases hlast : entered.isLast stepped.input status with
      | false => rw [hlast] at herror; cases herror
      | true => rw [hlast] at herror; cases herror

omit [Sink σ] in
-- Either no session could be started, or the decoder has been reset.
theorem Breaks.starts_over {alloc : Allocator σ} {w : Scene c Cursor σ} {error : DecodeError}
    {turn : Turn c Cursor σ Progress} (h : Breaks alloc w error turn)
    (hover : error.startsOver = true) : ∃ e : Decoder c, turn.decoder = e.reset.decoder := by
  cases h with
  | refused _ _ _ _ => cases hover
  | unserved _ _ => exact ⟨_, rfl⟩
  | failed _ _ => exact ⟨_, rfl⟩

/-- So far nothing was refused, and the decoder has come as far as chunks were handed out. -/
structure Along (base : Nat) (d : Decoder c) (sink : Recorder σ) : Prop where
  ready : d.session ≠ none
  granted : Granted sink.calls
  offset : d.outputOffset = base + sink.bytes.length

theorem Went.along {base : Nat} {d entered : Decoder c} {input : Cursor} {sink served : Recorder σ}
    {events : List Event} {s : S} {buffer : List UInt8} {stepped : Stepped S} {status : Status}
    (h : Went Sink.alloc d input sink events entered s buffer served stepped status)
    (ha : Along base d sink) : Along base (entered.afterStep input stepped status) served where
  ready := by simp only [afterStep_session, ne_eq, reduceCtorEq, not_false_eq_true]
  granted := granted_alloc ha.granted h.ran.serve h.ran.size
  offset := by
    rw [afterStep_outputOffset, (entered_config h.ran.enter).1, Recorder.bytes_alloc h.ran.serve]
    exact ha.offset

-- A chunk that the sink takes moves the decoder on.
theorem Along.taken {base offset : Nat} {d : Decoder c} {sink taken : Recorder σ}
    (ha : Along base d sink) (hoffset : d.outputOffset = offset) {data : List UInt8}
    (hpush : Sink.push sink ⟨offset, data⟩ = (.ok (), taken)) :
    Along base ({ d with outputOffset := offset + data.length } : Decoder c) taken where
  ready := ha.ready
  granted := granted_push ha.granted hpush
  offset := by
    rw [Recorder.bytes_push hpush, List.length_append, ← Nat.add_assoc, ← ha.offset, hoffset]

/-- A round in which nothing fails goes on like this. -/
theorem Goes.along {base : Nat} {w : Scene c Cursor (Recorder σ)} {r : PushRound c (Recorder σ)}
    (h : Goes w r) (ha : Along base w.decoder w.sink) :
    r.All (fun next => Along base next.decoder next.sink)
      fun turn => Along base turn.decoder turn.sink := by
  cases h with
  | spent _ _ => exact ha
  | starved went _ => exact went.along ha
  | passed went _ _ => exact went.along ha
  | closed went _ _ => exact went.along ha
  | filled went _ _ _ _ hpush => exact (went.along ha).taken afterStep_outputOffset hpush
  | ended went _ _ _ _ hpush => exact (went.along ha).taken afterStep_outputOffset hpush

theorem along_of_leads {base : Nat} {w w' : Scene c Cursor (Recorder σ)} {events : List Event}
    (h : Leads (fun _ => drive) w events w') (ha : Along base w.decoder w.sink) :
    Along base w'.decoder w'.sink := by
  refine h.keeps (I := fun w => Along base w.decoder w.sink) (fun ha hround => ?_) ha
  exact (goes_of_settles ha.ready hround fun events turn hr => by cases hr).along ha

/-- A push that does not fail leaves a decoder with a session, as far on as it handed out chunks. -/
theorem along_of_push {base : Nat} {w : Scene c Cursor (Recorder σ)} {fuel : Nat}
    {q : Logged Event (Turn c Cursor (Recorder σ) Bool)} (h : pushCursor fuel w = .ok q)
    {ended : Bool} (hresult : q.result.result = .ok ended) (ha : Along base w.decoder w.sink) :
    Along base q.result.decoder q.result.sink := by
  rcases (ends_of_push ha.ready h).last with ⟨earlier, w', events, hleads, hlast, _⟩
  have ha' := along_of_leads hleads ha
  refine (goes_of_settles ha'.ready hlast fun events turn hr => ?_).along ha'
  cases hr
  exact ⟨ended, hresult⟩

/-- What is told of a push that failed, or of a call that gave up with it. -/
structure Tells (r : Report c σ) (turn : Turn c Cursor (Recorder σ) Bool)
    (left : Cursor → Remainder) : Prop where
  after : r.after = turn.decoder
  left : r.left = left turn.input
  sink : r.sink = some turn.sink
  chunks : r.chunks = turn.sink.handed

omit [Sink σ] in
theorem Tells.calls {r : Report c σ} {turn : Turn c Cursor (Recorder σ) Bool}
    {left : Cursor → Remainder} (h : Tells r turn left) : r.calls = turn.sink.calls := by
  rw [Report.calls, h.sink]
  rfl

omit [Sink σ] in
theorem Tells.length {r : Report c σ} {turn : Turn c Cursor (Recorder σ) Bool}
    {left : Cursor → Remainder} (h : Tells r turn left) :
    r.length = turn.sink.bytes.length := by
  rw [Report.length, h.chunks]
  rfl

/-- A push that fails in the course of a call, with a session to begin with. -/
theorem failed_of_push {d : Decoder c} {call : Call σ} {start : Scene c Cursor (Recorder σ)}
    {left : Cursor → Remainder} (hbegins : call.Begins d start left)
    (ha : Along d.outputOffset start.decoder start.sink) {fuel : Nat}
    {q : Logged Event (Turn c Cursor (Recorder σ) Bool)} (h : pushCursor fuel start = .ok q)
    {error : DecodeError} (herror : q.result.result = .error error) {r : Report c σ}
    (hr : Tells r q.result left) :
    Failed d call r error ∧
      (error.startsOver = true → ∃ e : Decoder c, r.after = e.reset.decoder) := by
  rcases (ends_of_push ha.ready h).last with ⟨earlier, w, events, hleads, hlast, _⟩
  have hw := along_of_leads hleads ha
  rcases q with ⟨noted, turn⟩
  dsimp only at herror hr hlast
  rcases drive_cases hlast.of_const with ⟨_, _, _, hround⟩ | ⟨events', turn', hattempt, hround⟩
  · cases hround
  rcases turn' with ⟨w', error' | progress⟩
  · -- The last attempt broke off.
    cases hround
    cases herror
    have hbreaks := breaks_of_attempt hw.ready hattempt rfl
    refine ⟨?_, fun hover => ?_⟩
    · cases hbreaks with
      | refused hfinished hmore hmultiple hstart =>
          have hleft : r.left = left w.input := hr.left
          refine .refused (hleft ▸ .pushing hbegins hleads) hfinished hmore hmultiple hstart ?_ ?_
          · rw [hr.calls]
            exact hw.granted
          · rw [hr.after, hr.length, ← hw.offset]
            exact refusedAt_lost _ _ _
      | unserved henter hserve =>
          refine .sink ?_
          rw [hr.calls]
          exact refused_request hw.granted hserve
      | failed hran houtcome =>
          refine .decode (.pushing hbegins hleads) hran.enter hran.session hran.size hran.step
            houtcome ?_
          rw [hr.calls]
          exact granted_alloc hw.granted hran.serve hran.size
    · rcases hbreaks.starts_over hover with ⟨e, he⟩
      exact ⟨e, hr.after.trans he⟩
  · -- A chunk was filled, and the sink refused it.
    have hcases := attempted_of_eq hw.ready hattempt
    cases hcases with
    | spent _ _ => cases hround; cases herror
    | starved _ _ _ _ _ => cases hround; cases herror
    | closed _ _ _ _ _ _ => cases hround; cases herror
    | @filled events entered s buffer served stepped status hran hread houtcome hwritten _ _ _ =>
        have hserved : Granted served.calls :=
          granted_alloc hw.granted hran.serve hran.size
        rw [takeProgress_ofChunk] at hround
        rcases hpush : Sink.push served ⟨entered.outputOffset, stepped.output.front⟩ with
          ⟨cause | taken, sink'⟩
        · rw [deliverThen_of_error hpush] at hround
          cases hround
          cases herror
          refine ⟨.sink ?_, fun _ => ⟨_, hr.after⟩⟩
          rw [hr.calls]
          exact refused_push hserved hpush
        · rw [deliverThen_of_ok hpush] at hround
          cases hlast : entered.isLast stepped.input status with
          | false => rw [hlast] at hround; cases hround
          | true => rw [hlast] at hround; cases hround; cases herror

/-! ## Readings that fail -/

/-- A reading without a session has come to nothing but interruptions. -/
structure Waits (d : Decoder c) (reader : Reader) (sink : σ) (w : Scene c Reader (Recorder σ)) :
    Prop where
  unready : d.session = none
  decoder : w.decoder = d
  sink : w.sink = .ofSink sink
  input : w.input.items.dropWhile ReadItem.interrupts = reader.items.dropWhile ReadItem.interrupts

/-- How a reading stands between two rounds. -/
def Stands (d : Decoder c) (reader : Reader) (sink : σ) (w : Scene c Reader (Recorder σ)) : Prop :=
  Waits d reader sink w ∨ Along d.outputOffset w.decoder w.sink

omit [Sink σ] in
theorem along_ofSink {d : Decoder c} (hready : d.session ≠ none) (sink : σ) :
    Along d.outputOffset d (Recorder.ofSink sink) :=
  ⟨hready, granted_nil, rfl⟩

omit [Sink σ] in
theorem Stands.begin (d : Decoder c) (reader : Reader) (sink : σ) :
    Stands d reader sink ⟨d, reader, .ofSink sink⟩ := by
  by_cases hready : d.session = none
  · exact Or.inl ⟨hready, rfl, rfl, rfl⟩
  · exact Or.inr (along_ofSink hready sink)

omit [Sink σ] in
theorem Stands.granted {d : Decoder c} {reader : Reader} {sink : σ}
    {w : Scene c Reader (Recorder σ)} (h : Stands d reader sink w) :
    Granted w.sink.calls ∧ w.decoder.outputOffset = d.outputOffset + w.sink.bytes.length := by
  rcases h with hwaits | halong
  · rw [hwaits.decoder, hwaits.sink]
    exact ⟨granted_nil, rfl⟩
  · exact ⟨halong.granted, halong.offset⟩

-- Without a session there is no push that does not fail.
theorem Waits.push {d : Decoder c} {reader : Reader} {sink : σ} {w : Scene c Reader (Recorder σ)}
    (h : Waits d reader sink w) {fuel : Nat} {buffer : List UInt8}
    {q : Logged Event (Turn c Cursor (Recorder σ) Bool)}
    (hpush : w.decoder.push fuel buffer w.sink = .ok q) :
    q = ⟨[.notReady], ⟨⟨d, .ofBytes buffer, .ofSink sink⟩, .error .notReady⟩⟩ := by
  rw [h.decoder, h.sink] at hpush
  exact push_of_not_ready (w := ⟨d, .ofBytes buffer, Recorder.ofSink sink⟩) h.unready hpush

theorem Stands.again {d : Decoder c} {reader : Reader} {sink : σ}
    {w next : Scene c Reader (Recorder σ)} {events : List Event} (h : Stands d reader sink w)
    {fuel : Nat} (hround : readRound fuel w = .ok (.again events next)) :
    Stands d reader sink next := by
  have hpulled := pulled_of_readRound hround
  cases hpulled with
  | @interrupted e shown later recorder cause hfill hkind =>
      rcases h with hwaits | halong
      · refine Or.inl ⟨hwaits.unready, hwaits.decoder, hwaits.sink, ?_⟩
        have hinterrupts : ReadItem.interrupts (.fail cause) = true := decide_eq_true hkind
        have hinput := hwaits.input
        rw [fill_error hfill, List.dropWhile_cons_of_pos hinterrupts] at hinput
        exact hinput
      · exact Or.inr halong
  | @onward e shown recorder buffer ended q _ _ hpush hresult _ =>
      rcases h with hwaits | halong
      · cases hwaits.push hpush
        cases hresult
      · exact Or.inr (along_of_push (w := ⟨e, .ofBytes buffer, recorder⟩) hpush hresult halong)

-- In the course of a reading.
theorem stands_of_leads {d : Decoder c} {reader : Reader} {sink : σ} {events : List Event}
    {w : Scene c Reader (Recorder σ)}
    (h : Leads readRound ⟨d, reader, Recorder.ofSink sink⟩ events w) : Stands d reader sink w :=
  h.keeps (fun hs hround => hs.again hround.exists_fuel.choose_spec) (Stands.begin d reader sink)

/-- A reading that fails. -/
theorem failed_of_readAll {d : Decoder c} {reader : Reader} {sink : σ} {fuel : Nat}
    {q : Logged Event (Turn c Reader (Recorder σ) Unit)}
    (h : d.readAll fuel reader (Recorder.ofSink sink) = .ok q) {error : DecodeError}
    (herror : q.result.result = .error error) {r : Report c σ} (hafter : r.after = q.result.decoder)
    (hleft : r.left = .reader q.result.input) (hsink : r.sink = some q.result.sink)
    (hchunks : r.chunks = q.result.sink.handed) :
    Failed d (.readAll reader sink) r error ∧
      (error.startsOver = true → ∃ e : Decoder c, r.after = e.reset.decoder) := by
  have hends : Ends readRound ⟨d, reader, Recorder.ofSink sink⟩ (.ok q) :=
    ends_of_run stable_readRound fuel h (ok_ne_outOfFuel q)
  rcases hends.last with ⟨earlier, w, events, hleads, hlast, _⟩
  have hw := stands_of_leads hleads
  rcases hlast.exists_fuel with ⟨rounds, hround⟩
  have hcalls : r.calls = q.result.sink.calls := by
    rw [Report.calls, hsink]
    rfl
  have hlength : r.length = q.result.sink.bytes.length := by
    rw [Report.length, hchunks]
    rfl
  rcases q with ⟨noted, turn⟩
  dsimp only at herror hafter hleft hsink hchunks hround hcalls hlength
  have hpulled := pulled_of_readRound hround
  cases hpulled with
  | @failed e shown later recorder cause hfill hkind =>
      cases herror
      refine ⟨.input rfl hleads hfill hleft ?_, fun _ => ⟨_, hafter⟩⟩
      rw [hcalls]
      exact hw.granted.1
  | @exhausted e shown recorder hfill =>
      cases hpending : e.isPending with
      | false =>
          rw [finish_of_not_pending hpending] at herror
          cases herror
      | true =>
          rw [finish_of_pending hpending] at herror hafter
          cases herror
          refine ⟨.truncated (.readAll hleads hfill) hpending ?_ ?_, fun _ => ⟨_, hafter⟩⟩
          · rw [hlength]
            exact hw.granted.2
          · rw [hcalls]
            exact hw.granted.1
  | @broken e shown recorder buffer q _ hfill hmore hpush hresult =>
      cases herror
      rcases hw with hwaits | halong
      · cases hwaits.push hpush
        cases hresult
        refine ⟨.notReady ?_ hafter ?_, fun hover => Bool.noConfusion hover⟩
        · rw [isReady, hwaits.unready]
          rfl
        · rcases fill_data hfill hmore with ⟨rest, hitems⟩
          have hinput := hwaits.input
          rw [hitems, List.dropWhile_cons_of_neg (by exact Bool.false_ne_true)] at hinput
          rw [hleft, hsink, Call.untouched, ← hinput, ← hitems]
      · exact failed_of_push (.readAll hleads hfill hmore) halong hpush hresult
          ⟨hafter, hleft, hsink, hchunks⟩
  | ended _ _ _ _ _ => cases herror

/-! ## Every call that fails -/

/-- A step that makes further attempts has not handed out anything so far. -/
theorem level_of_attempts {τ : Type} {alloc : Allocator τ} {w w' : Scene c Cursor τ}
    {events : List Event} (h : Leads (fun _ => attempt alloc) w events w')
    (hready : w.decoder.session ≠ none) :
    w'.decoder.session ≠ none ∧ w'.decoder.outputOffset = w.decoder.outputOffset := by
  refine h.keeps (I := fun next => next.decoder.session ≠ none ∧
    next.decoder.outputOffset = w.decoder.outputOffset) (fun {next _ _} hs hround => ?_)
    ⟨hready, rfl⟩
  have hattempt := hround.of_const
  have hcases := attempted_of_eq hs.1 hattempt
  refine ⟨attempt_ready hs.1 hattempt, ?_⟩
  cases hcases with
  | passed hran _ _ _ _ _ =>
      rw [afterStep_outputOffset, (entered_config hran.enter).1]
      exact hs.2

-- Buffers of zeros have the size that is asked for.
omit [Sink σ] in
theorem request_zero (d : Decoder c) : ∃ buffer, d.request zeroAllocator () = (.ok buffer, ()) := by
  refine ⟨Sink.zeroed d.bufferSize.toNat, ?_⟩
  have hsize : (Sink.zeroed d.bufferSize.toNat).length = d.bufferSize.toNat := List.length_replicate
  simp only [request, zeroAllocator, hsize, if_true]

/-- A step that fails. -/
theorem failed_of_next {d : Decoder c} {input : Cursor} {fuel : Nat}
    {q : Logged Event (Turn c Cursor Unit Progress)} (h : d.next fuel input = .ok q)
    {error : DecodeError} (herror : q.result.result = .error error) {r : Report c σ}
    (hafter : r.after = q.result.decoder) (hleft : r.left = .cursor q.result.input)
    (hsink : r.sink = none) (hchunks : r.chunks = []) :
    Failed d (.next input) r error ∧
      (error.startsOver = true → ∃ e : Decoder c, r.after = e.reset.decoder) := by
  have hcalls : r.calls = [] := by
    rw [Report.calls, hsink]
    rfl
  have hlength : r.length = 0 := by
    rw [Report.length, hchunks]
    rfl
  by_cases hready : d.session = none
  · rw [next, step_of_not_ready hready] at h
    cases h
    cases herror
    refine ⟨.notReady ?_ hafter ?_, fun hover => Bool.noConfusion hover⟩
    · rw [isReady, hready]
      rfl
    · rw [hleft, hsink]
      rfl
  · rcases (ends_of_step hready h).last with ⟨earlier, w, events, hleads, hlast, _⟩
    have hw := level_of_attempts hleads hready
    have hbreaks := breaks_of_attempt hw.1 hlast.of_const herror
    rcases q with ⟨noted, turn⟩
    dsimp only at hafter hleft hbreaks
    refine ⟨?_, fun hover => ?_⟩
    · cases hbreaks with
      | refused hfinished hmore hmultiple hstart =>
          have hcomes : (Call.next (σ := σ) input).Comes d w.decoder w.input r.left :=
            hleft ▸ .next hleads
          refine .refused hcomes hfinished hmore hmultiple hstart (hcalls ▸ granted_nil) ?_
          rw [hafter, hlength, Nat.add_zero, ← hw.2]
          exact refusedAt_lost _ _ _
      | unserved _ hserve =>
          rcases request_zero (c := c) _ with ⟨buffer, hrequest⟩
          cases hserve.symm.trans hrequest
      | failed hran houtcome =>
          exact .decode (.next hleads) hran.enter hran.session hran.size hran.step houtcome
            (hcalls ▸ granted_nil)
    · rcases hbreaks.starts_over hover with ⟨e, he⟩
      exact ⟨e, hafter.trans he⟩

/-- A call that fails does so for one of the listed reasons, and if it has started over then the
    decoder has just been reset. -/
theorem failed_of_report {fuel : Nat} {d : Decoder c} {call : Call σ} {r : Report c σ}
    (h : call.report fuel d = .ok r) {error : DecodeError} (herror : r.answer = .error error) :
    Failed d call r error ∧
      (error.startsOver = true → ∃ e : Decoder c, r.after = e.reset.decoder) := by
  cases call with
  | push input sink =>
      rcases map_eq_ok h with ⟨q, hpush, rfl⟩
      have hresult := map_eq_error herror
      by_cases hready : d.session = none
      · cases push_of_not_ready (w := ⟨d, .ofBytes input, Recorder.ofSink sink⟩) hready hpush
        cases hresult
        refine ⟨.notReady ?_ rfl rfl, fun hover => Bool.noConfusion hover⟩
        rw [isReady, hready]
        rfl
      · exact failed_of_push (.push input sink) (along_ofSink hready sink) hpush hresult
          ⟨rfl, rfl, rfl, rfl⟩
  | next input =>
      rcases map_eq_ok h with ⟨q, hnext, rfl⟩
      have hresult := map_eq_error herror
      refine failed_of_next hnext hresult rfl rfl rfl ?_
      dsimp only [Record.ofStep]
      rw [hresult]
      rfl
  | readAll reader sink =>
      rcases map_eq_ok h with ⟨q, hread, rfl⟩
      exact failed_of_readAll hread (map_eq_error herror) rfl rfl rfl rfl
  | finish =>
      cases h
      cases hpending : d.isPending with
      | false =>
          rw [finish_of_not_pending hpending] at herror
          cases herror
      | true =>
          rw [finish_of_pending hpending] at herror ⊢
          cases herror
          exact ⟨.truncated .finish hpending rfl granted_nil, fun _ => ⟨d, rfl⟩⟩
  | reset =>
      cases h
      rcases reset_cases d with ⟨s, memory, _, hreset⟩ | ⟨cause, memory, hstart, hreset⟩
      · rw [hreset] at herror
        cases herror
      · rw [hreset] at herror ⊢
        cases herror
        exact ⟨.unstarted rfl hstart (refusedAt_lost _ _ _), fun hover => Bool.noConfusion hover⟩
  | release => cases h; cases herror
  | setBufferSize size => cases h; cases herror
  | setMultipleMembers multiple => cases h; cases herror

/-- Decoding changes no setting. -/
theorem settings_kept (d : Decoder c) : Invariant fun e : Decoder c =>
    e.bufferSize = d.bufferSize ∧ e.multipleMembers = d.multipleMembers where
  started _ he _ := he
  refused _ he _ := he
  stepped := by
    intro e s input buffer stepped status he _ _ _ _ _
    rw [afterStep_bufferSize, afterStep_multipleMembers]
    exact he
  failed := by
    intro e s input buffer stepped error he _ _ _ _ _
    rw [reset_eq_created]
    exact he
  moved _ he := he

/-- A decoder that has just been reset and has kept its settings is a new one. -/
theorem afresh_of_reset {d e after : Decoder c} (h : after = e.reset.decoder)
    (hsettings : after.bufferSize = d.bufferSize ∧ after.multipleMembers = d.multipleMembers) :
    ∃ memory, after = created c memory d.bufferSize d.multipleMembers := by
  rcases hsettings with ⟨hsize, hmultiple⟩
  have hcreated := h.trans (reset_eq_created e)
  rw [hcreated] at hsize hmultiple
  exact ⟨e.retire, by rw [hcreated, ← hsize, ← hmultiple]; rfl⟩

theorem decodes_of_error {fuel : Nat} {d : Decoder c} {call : Call σ} {r : Report c σ}
    (h : call.report fuel d = .ok r) {error : DecodeError} (herror : r.answer = .error error) :
    call.decodes = true := by
  cases call with
  | release => cases h; cases herror
  | setBufferSize size => cases h; cases herror
  | setMultipleMembers multiple => cases h; cases herror
  | _ => rfl

/-- After every failure but the refusal of a session, or the lack of one, the decoder is a new one
    with its settings. -/
theorem afresh_of_report {fuel : Nat} {d : Decoder c} {call : Call σ} {r : Report c σ}
    (h : call.report fuel d = .ok r) {error : DecodeError} (herror : r.answer = .error error)
    (hover : error.startsOver = true) :
    ∃ memory, r.after = created c memory d.bufferSize d.multipleMembers := by
  rcases (failed_of_report h herror).2 hover with ⟨e, he⟩
  have hrun : call.run fuel d = .ok r.toRecord := by
    rw [run_eq_report, h]
    rfl
  exact afresh_of_reset he ((settings_kept d).run (decodes_of_error h herror) ⟨rfl, rfl⟩ hrun)

/-- A call that fails does so for one of the listed reasons. Without a session nothing happens; if
    none can be started, there is none at the offset that has been reached; and after every other
    failure the decoder is a new one, or has no session at offset zero if none can be started, and
    whatever is asked of it from there on has the same answers as from a new decoder whose sessions
    behave the same. -/
theorem failure_contract {fuel : Nat} {d : Decoder c} {call : Call σ} {r : Report c σ}
    (h : call.report fuel d = .ok r) {error : DecodeError} (herror : r.answer = .error error) :
    Failed d call r error ∧
      (error.startsOver = true → ∃ memory,
        r.after = created c memory d.bufferSize d.multipleMembers ∧
        (∀ cause memory', c.start memory = (.error cause, memory') → r.after.Lost 0) ∧
        ∀ (L : Likeness c c) (memory' : M), L.memory memory memory' →
          ∀ {τ : Type} [Sink τ] (fuel : Nat) (calls : List (Call τ)),
            Matched (Abreast (ReportAlike L)) (reports fuel r.after calls)
              (reports fuel (created c memory' d.bufferSize d.multipleMembers) calls)) := by
  refine ⟨(failed_of_report h herror).1, fun hover => ?_⟩
  rcases afresh_of_report h herror hover with ⟨memory, hafter⟩
  refine ⟨memory, hafter, ?_, ?_⟩
  · intro cause memory' hstart
    rw [hafter]
    exact created_lost _ _ hstart
  · intro L memory' hmemory τ _ fuel calls
    rw [hafter]
    exact reports_alike fuel calls (created_alike L hmemory _ _)

/-- A reader that fails within a stream, when there is one session left to start over with. -/
theorem failure_contract_rationed :
    ∃ (r : Report copier.rationed (Array Chunk)) (memory : Unit × Nat),
    (Call.readAll ⟨[.data [5], .fail ⟨.other, "gone"⟩]⟩ #[]).report 9
      (created copier.rationed ((), 2) ⟨2, by decide⟩ false) = .ok r ∧
    r.answer = .error (.input ⟨.other, "gone"⟩) ∧
    r.after = created copier.rationed memory ⟨2, by decide⟩ false := by
  have hreturns : ∃ r : Report copier.rationed (Array Chunk),
      (Call.readAll ⟨[.data [5], .fail ⟨.other, "gone"⟩]⟩ #[]).report 9
        (created copier.rationed ((), 2) ⟨2, by decide⟩ false) = .ok r ∧
      r.answer = .error (.input ⟨.other, "gone"⟩) := ⟨_, rfl, rfl⟩
  rcases hreturns with ⟨r, hr, hanswer⟩
  rcases (failure_contract hr hanswer).2 rfl with ⟨memory, hafter, _⟩
  exact ⟨r, memory, hr, hanswer, hafter⟩

end Courses

end Decompression
