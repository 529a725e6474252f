import Decompression.Decoder.Step
import Decompression.Proofs.Restart

/-!
# What an Attempt Can Come To

An attempt is one round of the chunk loop: a session is run once, and something is made
of what it did. `Attempted` lists everything it can come to, one constructor for each
way out, and each constructor holds all the conditions under which that way is taken.
Later proofs follow these constructors and open no definition of the loop.

The session is always run in the same situation, `Ran`: the decoder has been entered,
which may have meant starting a further member, the sink has provided a buffer of the
right size, and there is a session. What the session did is `stepped`, and the
constructors from there on differ in it alone.

A chunk is placed where the session's count of its output says. That this is where the
decoder itself has come to is part of the last constructor: the two counts are compared
before a chunk is handed out.

## Main definitions

* `Entered`: How a decoder comes to the point where a buffer is asked for.
* `Ran`: The situation in which a session is run.
* `Decoder.afterStep`: The decoder after a successful step of its session.
* `Decoder.isLast`: A chunk is the last of its stream.
* `Attempted`: What an attempt can come to.

## Theorems

* `attempted`: Every attempt of a decoder with a session comes to one of these.
-/

namespace Decompression

open Decoder

variable {S M σ : Type} {c : Codec S M}

/-- How a decoder comes to the point where a buffer is asked for: as it is, or with the
    first session of a further member. -/
inductive Entered (d : Decoder c) (input : Cursor) : List Event → Decoder c → Prop
  -- The stream goes on, or input after its end is handed to its session
  | stay (h : d.finished = true → input.rest ≠ [] ∧ d.multipleMembers = false) :
      Entered d input [] d
  -- A further member begins
  | member {s : S} {memory : M} (finished : d.finished = true) (more : input.rest ≠ [])
      (multiple : d.multipleMembers = true) (start : c.start d.retire = (.ok s, memory)) :
      Entered d input [.nextMember d.outputOffset] (d.startedAt d.outputOffset s memory)

/-- The situation in which a session is run, and what it did. -/
structure Ran (alloc : Allocator σ) (d : Decoder c) (input : Cursor) (sink : σ)
    (events : List Event) (entered : Decoder c) (s : S) (buffer : List UInt8) (served : σ)
    (stepped : Stepped S) : Prop where
  -- The decoder was entered
  enter : Entered d input events entered
  -- It has a session
  session : entered.session = some s
  -- There is a buffer
  serve : alloc sink entered.outputOffset entered.bufferSize.toNat = (.ok buffer, served)
  -- The buffer has the size that was asked for
  size : buffer.length = entered.bufferSize.toNat
  -- There is input to be read, or the cursor is at its end
  bounds : input.InBounds
  -- The session was run into the buffer
  step : c.step s input (.ofBytes buffer) = stepped

theorem Ran.room {alloc : Allocator σ} {d entered : Decoder c} {input : Cursor} {sink served : σ}
    {events : List Event} {s : S} {buffer : List UInt8} {stepped : Stepped S}
    (h : Ran alloc d input sink events entered s buffer served stepped) : buffer ≠ [] := by
  intro hnil
  have hpos := entered.bufferSize.pos
  rw [← h.size, hnil] at hpos
  exact absurd hpos (Nat.lt_irrefl 0)

/-- The decoder after a successful step of its session. -/
def Decoder.afterStep (d : Decoder c) (input : Cursor) (stepped : Stepped S) (status : Status) :
    Decoder c :=
  (d.returnSession stepped.session input stepped.input).noteStatus status

/-- A chunk from a step with this status is the last of its stream. -/
def Decoder.isLast (d : Decoder c) (input : Cursor) : Status → Bool
  | .progress => false
  | .streamEnd => !d.hasFurtherMember input

/-- The answer of a step that filled a chunk. -/
def Progress.ofChunk (last : Bool) (chunk : Chunk) : Progress :=
  if last then .ended (some chunk) else .chunk chunk

/-- The chunk that an answer hands to the caller. -/
def Progress.chunks : Progress → List Chunk
  | .chunk span => [span]
  | .ended last => last.toList
  | .needInput => []

/-- The chunk handed to the caller, if there is an answer at all. -/
def answeredChunks : Except DecodeError Progress → List Chunk
  | .ok progress => progress.chunks
  | .error _ => []

theorem answeredChunks_ofChunk (last : Bool) (chunk : Chunk) :
    answeredChunks (.ok (.ofChunk last chunk)) = [chunk] := by
  cases last <;> rfl

/-- The events of a step that filled a chunk, the last one of its stream or not. -/
def Event.ofChunk (last : Bool) (chunk : Chunk) : List Event :=
  .chunkProduced chunk.offset chunk.length :: if last then [.streamEnded chunk.endOffset] else []

/-- Everything that an attempt can come to. -/
inductive Attempted (alloc : Allocator σ) (d : Decoder c) (input : Cursor) (sink : σ) :
    Except Fault (Round Event (Scene c Cursor σ) (Turn c Cursor σ Progress)) → Prop
  -- The input cursor is out of bounds
  | lost (h : ¬ input.InBounds) : Attempted alloc d input sink (.error .inputOverrun)
  -- The stream is over and there is no more input
  | spent (finished : d.finished = true) (exhausted : input.rest = []) :
      Attempted alloc d input sink (.ok (.done [] ⟨⟨d, input, sink⟩, .ok (.ended none)⟩))
  -- A further member could not be started
  | refused {cause : IoError} {memory : M} (finished : d.finished = true)
      (more : input.rest ≠ []) (multiple : d.multipleMembers = true)
      (start : c.start d.retire = (.error cause, memory)) :
      Attempted alloc d input sink (.ok (.done
        [.nextMember d.outputOffset, .startFailed (.start cause)]
        ⟨⟨d.refusedAt d.outputOffset memory, input, sink⟩, .error (.start cause)⟩))
  -- There was no buffer of the right size
  | unserved {events : List Event} {entered : Decoder c} {cause : IoError} {served : σ}
      (enter : Entered d input events entered)
      (serve : entered.request alloc sink = (.error (.alloc cause), served)) :
      Attempted alloc d input sink (.ok (.done
        (events ++ .failed (.alloc cause) :: entered.reset.events)
        ⟨⟨entered.reset.decoder, input, served⟩, .error (.alloc cause)⟩))
  -- The session moved the input cursor out of bounds
  | overread {events : List Event} {entered : Decoder c} {s : S} {buffer : List UInt8}
      {served : σ} {stepped : Stepped S}
      (ran : Ran alloc d input sink events entered s buffer served stepped)
      (read : ¬ stepped.input.InBounds) : Attempted alloc d input sink (.error .inputOverrun)
  -- The session failed
  | failed {events : List Event} {entered : Decoder c} {s : S} {buffer : List UInt8}
      {served : σ} {stepped : Stepped S} {error : StepError}
      (ran : Ran alloc d input sink events entered s buffer served stepped)
      (read : stepped.input.InBounds) (outcome : stepped.outcome = .error error) :
      Attempted alloc d input sink (.ok (.done
        (events ++ .failed (.ofStep error) ::
          (entered.returnSession stepped.session input stepped.input).reset.events)
        ⟨⟨(entered.returnSession stepped.session input stepped.input).reset.decoder,
          stepped.input, served⟩, .error (.ofStep error)⟩))
  -- The session moved the output cursor out of bounds
  | overwritten {events : List Event} {entered : Decoder c} {s : S} {buffer : List UInt8}
      {served : σ} {stepped : Stepped S} {status : Status}
      (ran : Ran alloc d input sink events entered s buffer served stepped)
      (read : stepped.input.InBounds) (outcome : stepped.outcome = .ok status)
      (written : ¬ stepped.output.InBounds) :
      Attempted alloc d input sink (.error .outputOverrun)
  -- Nothing was written, and the stream is not over
  | starved {events : List Event} {entered : Decoder c} {s : S} {buffer : List UInt8}
      {served : σ} {stepped : Stepped S}
      (ran : Ran alloc d input sink events entered s buffer served stepped)
      (read : stepped.input.InBounds) (outcome : stepped.outcome = .ok .progress)
      (written : stepped.output.InBounds) (nothing : stepped.output.front = []) :
      Attempted alloc d input sink (.ok (.done events
        ⟨⟨entered.afterStep input stepped .progress, stepped.input, served⟩, .ok .needInput⟩))
  -- Nothing was written, the member is over and there is a further one
  | passed {events : List Event} {entered : Decoder c} {s : S} {buffer : List UInt8}
      {served : σ} {stepped : Stepped S}
      (ran : Ran alloc d input sink events entered s buffer served stepped)
      (read : stepped.input.InBounds) (outcome : stepped.outcome = .ok .streamEnd)
      (written : stepped.output.InBounds) (nothing : stepped.output.front = [])
      (further : entered.hasFurtherMember stepped.input = true) :
      Attempted alloc d input sink (.ok (.again events
        ⟨entered.afterStep input stepped .streamEnd, stepped.input, served⟩))
  -- Nothing was written and the stream is over
  | closed {events : List Event} {entered : Decoder c} {s : S} {buffer : List UInt8}
      {served : σ} {stepped : Stepped S}
      (ran : Ran alloc d input sink events entered s buffer served stepped)
      (read : stepped.input.InBounds) (outcome : stepped.outcome = .ok .streamEnd)
      (written : stepped.output.InBounds) (nothing : stepped.output.front = [])
      (last : entered.hasFurtherMember stepped.input = false) :
      Attempted alloc d input sink (.ok (.done events
        ⟨⟨entered.afterStep input stepped .streamEnd, stepped.input, served⟩,
          .ok (.ended none)⟩))
  -- Something was written, but the counts of the output do not fit
  | miscounted {events : List Event} {entered : Decoder c} {s : S} {buffer : List UInt8}
      {served : σ} {stepped : Stepped S} {status : Status} {fault : Fault}
      (ran : Ran alloc d input sink events entered s buffer served stepped)
      (read : stepped.input.InBounds) (outcome : stepped.outcome = .ok status)
      (written : stepped.output.InBounds) (something : stepped.output.front ≠ [])
      (count : ¬ (entered.outputOffset + stepped.output.front.length =
          entered.memberBase + c.totalOut stepped.session ∧
        entered.outputOffset + stepped.output.front.length < offsetLimit))
      (fault_ne : fault ≠ .outOfFuel) : Attempted alloc d input sink (.error fault)
  -- A chunk was filled
  | filled {events : List Event} {entered : Decoder c} {s : S} {buffer : List UInt8}
      {served : σ} {stepped : Stepped S} {status : Status}
      (ran : Ran alloc d input sink events entered s buffer served stepped)
      (read : stepped.input.InBounds) (outcome : stepped.outcome = .ok status)
      (written : stepped.output.InBounds) (something : stepped.output.front ≠ [])
      (count : entered.outputOffset + stepped.output.front.length =
        entered.memberBase + c.totalOut stepped.session)
      (range : entered.outputOffset + stepped.output.front.length < offsetLimit) :
      Attempted alloc d input sink (.ok (.done
        (events ++ Event.ofChunk (entered.isLast stepped.input status)
          ⟨entered.outputOffset, stepped.output.front⟩)
        ⟨⟨{ entered.afterStep input stepped status with
            outputOffset := entered.outputOffset + stepped.output.front.length },
          stepped.input, served⟩,
          .ok (.ofChunk (entered.isLast stepped.input status)
            ⟨entered.outputOffset, stepped.output.front⟩)⟩))

namespace Decoder

variable {alloc : Allocator σ} {d : Decoder c} {input : Cursor} {sink : σ}

theorem entered_session {events : List Event} {entered : Decoder c}
    (h : Entered d input events entered) (hready : d.session ≠ none) :
    ∃ s, entered.session = some s := by
  cases h with
  | stay _ => exact Option.ne_none_iff_exists'.mp hready
  | @member s _ _ _ _ _ => exact ⟨s, rfl⟩

/-- Where nothing can be run, the attempt is over; otherwise the decoder is entered. -/
theorem enter_cases (d : Decoder c) (input : Cursor) :
    (d.enter input = .error .inputOverrun ∧ ¬ input.InBounds) ∨
    (d.enter input = .ok (.stop ⟨d, [], .ok (.ended none)⟩) ∧ d.finished = true ∧
      input.rest = []) ∨
    (∃ cause memory, d.enter input = .ok (.stop ⟨d.refusedAt d.outputOffset memory,
        [.nextMember d.outputOffset, .startFailed (.start cause)], .error (.start cause)⟩) ∧
      d.finished = true ∧ input.rest ≠ [] ∧ d.multipleMembers = true ∧
      c.start d.retire = (.error cause, memory)) ∨
    (∃ events entered, d.enter input = .ok (.go events entered) ∧
      Entered d input events entered) := by
  unfold enter
  by_cases hfin : d.finished = true
  · rw [if_pos hfin]
    by_cases hin : input.InBounds
    · have hrest? : input.rest? = some input.rest := by simp only [Cursor.rest?, if_pos hin]
      rw [hrest?]
      cases hrest : input.rest with
      | nil => exact Or.inr (Or.inl ⟨rfl, hfin, rfl⟩)
      | cons b bs =>
          have hmore : input.rest ≠ [] := by rw [hrest]; exact List.cons_ne_nil b bs
          refine Or.inr (Or.inr ?_)
          by_cases hmulti : d.multipleMembers = true
          · rcases hstart : c.start d.retire with ⟨cause | s, memory⟩
            · refine Or.inl ⟨cause, memory, ?_, hfin, List.cons_ne_nil b bs, hmulti, rfl⟩
              simp only [hmulti, if_true, nextMember_of_error hstart]
            · refine Or.inr ⟨_, _, ?_, .member hfin hmore hmulti hstart⟩
              simp only [hmulti, if_true, nextMember_of_ok hstart]
          · refine Or.inr ⟨_, _, ?_, .stay fun _ => ⟨hmore, by simpa using hmulti⟩⟩
            simp only [hmulti, Bool.false_eq_true, if_false]
    · refine Or.inl ⟨?_, hin⟩
      simp only [Cursor.rest?, if_neg hin]
  · rw [if_neg hfin]
    exact Or.inr (Or.inr (Or.inr ⟨_, _, rfl, .stay fun h => absurd h hfin⟩))

/-- The sink provides a buffer of the right size, or it is to blame for the failure. -/
theorem request_cases (alloc : Allocator σ) (d : Decoder c) (sink : σ) :
    (∃ buffer served, d.request alloc sink = (.ok buffer, served) ∧
      alloc sink d.outputOffset d.bufferSize.toNat = (.ok buffer, served) ∧
      buffer.length = d.bufferSize.toNat) ∨
    (∃ cause served, d.request alloc sink = (.error (.alloc cause), served)) := by
  unfold request
  rcases halloc : alloc sink d.outputOffset d.bufferSize.toNat with ⟨cause | buffer, served⟩
  · exact Or.inr ⟨cause, served, rfl⟩
  · by_cases hsize : buffer.length = d.bufferSize.toNat
    · exact Or.inl ⟨buffer, served, by simp only [if_pos hsize], rfl, hsize⟩
    · refine Or.inr ⟨wrongSize d.bufferSize.toNat buffer.length, served, ?_⟩
      simp only [if_neg hsize]

theorem request_sink (alloc : Allocator σ) (d : Decoder c) (sink : σ) :
    (d.request alloc sink).2 = (alloc sink d.outputOffset d.bufferSize.toNat).2 := by
  unfold request
  rcases alloc sink d.outputOffset d.bufferSize.toNat with ⟨cause | buffer, served⟩
  · rfl
  · by_cases hsize : buffer.length = d.bufferSize.toNat
    · simp only [if_pos hsize]
    · simp only [if_neg hsize]

/-- Where the counts of the output fit, a chunk begins where the decoder has come to. -/
theorem chunkOffset_of_count {d : Decoder c} {s : S} (hs : d.session = some s) {produced : Nat}
    (hcount : d.outputOffset + produced = d.memberBase + c.totalOut s)
    (hrange : d.outputOffset + produced < offsetLimit) :
    d.chunkOffset produced = .ok d.outputOffset := by
  simp only [chunkOffset, addOffset, subOffset, hs, Option.elim, ← hcount, if_pos hrange, bind,
    Except.bind, if_pos (Nat.le_add_left produced d.outputOffset), Nat.add_sub_cancel]

theorem moveBy_of_count {d : Decoder c} {s : S} (hs : d.session = some s) {produced : Nat}
    (hcount : d.outputOffset + produced = d.memberBase + c.totalOut s)
    (hrange : d.outputOffset + produced < offsetLimit) :
    d.moveBy produced = .ok { d with outputOffset := d.outputOffset + produced } := by
  simp only [moveBy, addOffset, hs, ← hcount, if_pos hrange, bind, Except.bind, if_true]

/-- The count of the output, when a chunk of it has just been written. -/
theorem concludeChunk_of_count {d : Decoder c} {s : S} (hs : d.session = some s)
    {status : Status} {data : List UInt8}
    (hcount : d.outputOffset + data.length = d.memberBase + c.totalOut s)
    (hrange : d.outputOffset + data.length < offsetLimit) :
    d.concludeChunk input status data =
      .ok ⟨{ d with outputOffset := d.outputOffset + data.length },
        Event.ofChunk (d.isLast input status) ⟨d.outputOffset, data⟩,
        .ok (.ofChunk (d.isLast input status) ⟨d.outputOffset, data⟩)⟩ := by
  unfold concludeChunk
  rw [chunkOffset_of_count hs hcount hrange, moveBy_of_count hs hcount hrange]
  cases status with
  | progress => rfl
  | streamEnd =>
      by_cases hfurther : d.hasFurtherMember input = true
      · have hfurther' : hasFurtherMember (c := c)
            { d with outputOffset := d.outputOffset + data.length } input = true := hfurther
        simp only [bind, Except.bind, if_pos hfurther', isLast, hfurther, Event.ofChunk,
          Progress.ofChunk, Bool.not_true, Bool.false_eq_true, if_false]
        rfl
      · have hfurther' : ¬ hasFurtherMember (c := c)
            { d with outputOffset := d.outputOffset + data.length } input = true := hfurther
        simp only [Bool.not_eq_true] at hfurther
        simp only [bind, Except.bind, if_neg hfurther', isLast, hfurther, Event.ofChunk,
          Progress.ofChunk, Bool.not_false, if_true]
        rfl

/-- Where the counts do not fit, no chunk is handed out. -/
theorem concludeChunk_of_miscount (input : Cursor) (status : Status) {d : Decoder c} {s : S}
    (hs : d.session = some s) {data : List UInt8}
    (hcount : ¬ (d.outputOffset + data.length = d.memberBase + c.totalOut s ∧
      d.outputOffset + data.length < offsetLimit)) :
    ∃ fault, d.concludeChunk input status data = .error fault ∧ fault ≠ .outOfFuel := by
  simp only [concludeChunk, chunkOffset, moveBy, addOffset, subOffset, hs, Option.elim, bind,
    Except.bind]
  by_cases htotal : d.memberBase + c.totalOut s < offsetLimit
  · by_cases hdata : data.length ≤ d.memberBase + c.totalOut s
    · by_cases hrange : d.outputOffset + data.length < offsetLimit
      · -- Both sums are in range, so it is their difference that is at fault.
        have hne : ¬ d.outputOffset + data.length = d.memberBase + c.totalOut s :=
          fun h => hcount ⟨h, hrange⟩
        simp only [if_pos htotal, if_pos hdata, if_pos hrange, if_neg hne]
        exact ⟨.offsetMismatch, rfl, by decide⟩
      · simp only [if_pos htotal, if_pos hdata, if_neg hrange]
        exact ⟨.offsetOverflow, rfl, by decide⟩
    · simp only [if_pos htotal, if_neg hdata]
      exact ⟨.offsetOverflow, rfl, by decide⟩
  · simp only [if_neg htotal]
    exact ⟨.offsetOverflow, rfl, by decide⟩

/-- A count that fits, but is out of range. -/
theorem concludeChunk_of_overflow (input : Cursor) (status : Status) {d : Decoder c} {s : S}
    (hs : d.session = some s) {data : List UInt8}
    (hcount : d.outputOffset + data.length = d.memberBase + c.totalOut s)
    (hrange : ¬ d.outputOffset + data.length < offsetLimit) :
    d.concludeChunk input status data = .error .offsetOverflow := by
  simp only [concludeChunk, chunkOffset, addOffset, hs, Option.elim, ← hcount, if_neg hrange, bind,
    Except.bind]

theorem conclude_eq (d : Decoder c) (input output : Cursor) (status : Status) :
    d.conclude input output status =
      if output.InBounds then
        if output.front = [] then .ok ((d.noteStatus status).concludeEmpty input status)
        else ((d.noteStatus status).concludeChunk input status output.front).map .answer
      else .error .outputOverrun := by
  unfold conclude Cursor.front?
  by_cases hin : output.InBounds
  · rw [if_pos hin, if_pos hin]
    cases hfront : output.front with
    | nil => rw [if_pos rfl]
    | cons b bs => rw [if_neg (List.cons_ne_nil b bs)]
  · rw [if_neg hin, if_neg hin]

theorem hasFurtherMember_iff :
    d.hasFurtherMember input = true ↔ d.multipleMembers = true ∧ input.rest ≠ [] := by
  simp only [hasFurtherMember, Bool.and_eq_true, Bool.not_eq_true', List.isEmpty_eq_false_iff]

/-- A chunk is the last of its stream if it came with the end and no further member follows. -/
theorem isLast_iff {status : Status} :
    d.isLast input status = true ↔
      status = .streamEnd ∧ (d.multipleMembers = true → input.rest = []) := by
  cases status with
  | progress => simp only [isLast, Bool.false_eq_true, reduceCtorEq, false_and]
  | streamEnd =>
      rw [isLast, Bool.not_eq_true', ← Bool.not_eq_true, hasFurtherMember_iff]
      simp only [true_and, not_and, ne_eq, Decidable.not_not]

section AfterStep

variable {stepped : Stepped S} {status : Status}

@[simp] theorem afterStep_session :
    (d.afterStep input stepped status).session = some stepped.session := by
  cases status <;> rfl

@[simp] theorem afterStep_outputOffset :
    (d.afterStep input stepped status).outputOffset = d.outputOffset := by
  cases status <;> rfl

@[simp] theorem afterStep_memberBase :
    (d.afterStep input stepped status).memberBase = d.memberBase := by
  cases status <;> rfl

@[simp] theorem afterStep_multipleMembers :
    (d.afterStep input stepped status).multipleMembers = d.multipleMembers := by
  cases status <;> rfl

@[simp] theorem afterStep_bufferSize :
    (d.afterStep input stepped status).bufferSize = d.bufferSize := by
  cases status <;> rfl

@[simp] theorem afterStep_memory :
    (d.afterStep input stepped status).memory = d.memory := by
  cases status <;> rfl

theorem afterStep_hasFurtherMember {after : Cursor} :
    (d.afterStep input stepped status).hasFurtherMember after = d.hasFurtherMember after := by
  cases status <;> rfl

theorem afterStep_isLast {after : Cursor} {status' : Status} :
    (d.afterStep input stepped status).isLast after status' = d.isLast after status' := by
  cases status' with
  | progress => rfl
  | streamEnd => simp only [isLast, afterStep_hasFurtherMember]

end AfterStep

/-- An attempt that gets as far as running a session. That the session is lent out for
    the run makes no difference. -/
theorem attempt_eq_runSession {events : List Event} {entered : Decoder c} {s : S}
    {buffer : List UInt8} {served : σ} (henter : d.enter input = .ok (.go events entered))
    (hrequest : entered.request alloc sink = (.ok buffer, served))
    (hs : entered.session = some s) :
    attempt alloc ⟨d, input, sink⟩ = (entered.runSession s input buffer).map fun
      | (.again d, input) => .again events ⟨d, input, served⟩
      | (.answer o, input) => answer events o input served := by
  have hlent : runSession (c := c) { entered with session := none } s input buffer =
      entered.runSession s input buffer := rfl
  simp only [attempt, henter, hrequest, lend?, hs, hlent]
  rcases entered.runSession s input buffer with fault | ⟨d' | o, input'⟩ <;> rfl

theorem runSession_of_error {s : S} {buffer : List UInt8} {stepped : Stepped S}
    {error : StepError} (hstep : c.step s input (.ofBytes buffer) = stepped)
    (hin : input.InBounds) (hread : stepped.input.InBounds)
    (houtcome : stepped.outcome = .error error) :
    d.runSession s input buffer = .ok (.answer
      ((d.returnSession stepped.session input stepped.input).fail (.ofStep error)),
      stepped.input) := by
  simp only [runSession, hstep, if_pos hin, if_pos hread, houtcome]

theorem runSession_of_ok {s : S} {buffer : List UInt8} {stepped : Stepped S}
    {status : Status} (hstep : c.step s input (.ofBytes buffer) = stepped)
    (hin : input.InBounds) (hread : stepped.input.InBounds)
    (houtcome : stepped.outcome = .ok status) :
    d.runSession s input buffer =
      (if stepped.output.InBounds then
        if stepped.output.front = [] then
          .ok ((d.afterStep input stepped status).concludeEmpty stepped.input status)
        else ((d.afterStep input stepped status).concludeChunk stepped.input status
          stepped.output.front).map .answer
      else .error .outputOverrun).map fun v => (v, stepped.input) := by
  simp only [runSession, hstep, if_pos hin, if_pos hread, houtcome, conclude_eq]
  rfl

/-- Every attempt of a decoder with a session comes to one of the listed ends. -/
theorem attempted (alloc : Allocator σ) (d : Decoder c) (input : Cursor) (sink : σ)
    (hready : d.session ≠ none) :
    Attempted alloc d input sink (attempt alloc ⟨d, input, sink⟩) := by
  rcases enter_cases d input with ⟨henter, hlost⟩ | ⟨henter, hfin, hrest⟩ |
      ⟨cause, memory, henter, hfin, hmore, hmulti, hstart⟩ | ⟨events, entered, henter, hentered⟩
  · simp only [attempt, henter]
    exact .lost hlost
  · simp only [attempt, henter]
    exact .spent hfin hrest
  · simp only [attempt, henter]
    exact .refused hfin hmore hmulti hstart
  rcases request_cases alloc entered sink with
      ⟨buffer, served, hrequest, halloc, hsize⟩ | ⟨cause, served, hrequest⟩
  case inr =>
    simp only [attempt, henter, hrequest]
    exact .unserved hentered hrequest
  rcases entered_session hentered hready with ⟨s, hs⟩
  rw [attempt_eq_runSession henter hrequest hs]
  by_cases hin : input.InBounds
  case neg =>
    simp only [runSession, if_neg hin, Except.map]
    exact .lost hin
  have hran : Ran alloc d input sink events entered s buffer served
      (c.step s input (.ofBytes buffer)) := ⟨hentered, hs, halloc, hsize, hin, rfl⟩
  generalize hstep : c.step s input (.ofBytes buffer) = stepped at hran
  by_cases hread : stepped.input.InBounds
  case neg =>
    simp only [runSession, hstep, if_pos hin, if_neg hread, Except.map]
    exact .overread hran hread
  cases houtcome : stepped.outcome with
  | error error =>
      rw [runSession_of_error hstep hin hread houtcome]
      exact .failed hran hread houtcome
  | ok status =>
      rw [runSession_of_ok hstep hin hread houtcome]
      by_cases hwritten : stepped.output.InBounds
      case neg =>
        rw [if_neg hwritten]
        exact .overwritten hran hread houtcome hwritten
      rw [if_pos hwritten]
      by_cases hfront : stepped.output.front = []
      · rw [if_pos hfront]
        cases status with
        | progress =>
            have h := Attempted.starved hran hread houtcome hwritten hfront
            simpa only [Except.map, concludeEmpty, answer, List.append_nil] using h
        | streamEnd =>
            by_cases hfurther : entered.hasFurtherMember stepped.input = true
            · have h := Attempted.passed hran hread houtcome hwritten hfront hfurther
              simpa only [Except.map, concludeEmpty, afterStep_hasFurtherMember,
                if_pos hfurther] using h
            · have h := Attempted.closed hran hread houtcome hwritten hfront
                (by simpa only [Bool.not_eq_true] using hfurther)
              simpa only [Except.map, concludeEmpty, afterStep_hasFurtherMember,
                if_neg hfurther, answer, List.append_nil] using h
      · rw [if_neg hfront]
        have hs' : (entered.afterStep input stepped status).session = some stepped.session :=
          afterStep_session
        by_cases hcount : entered.outputOffset + stepped.output.front.length =
            entered.memberBase + c.totalOut stepped.session ∧
            entered.outputOffset + stepped.output.front.length < offsetLimit
        · have h := Attempted.filled hran hread houtcome hwritten hfront hcount.1 hcount.2
          rw [concludeChunk_of_count hs' (by simpa only [afterStep_outputOffset,
            afterStep_memberBase] using hcount.1) (by simpa only [afterStep_outputOffset]
            using hcount.2)]
          simpa only [Except.map, answer, afterStep_isLast, afterStep_outputOffset] using h
        · rcases concludeChunk_of_miscount stepped.input status hs'
            (by simpa only [afterStep_outputOffset, afterStep_memberBase] using hcount) with
            ⟨fault, hconclude, hne⟩
          rw [hconclude]
          exact .miscounted hran hread houtcome hwritten hfront hcount hne

/-- The same, of an attempt with a known outcome. -/
theorem attempted_of_eq {w : Scene c Cursor σ} (hready : w.decoder.session ≠ none)
    {o : Except Fault (Round Event (Scene c Cursor σ) (Turn c Cursor σ Progress))}
    (h : attempt alloc w = o) : Attempted alloc w.decoder w.input w.sink o := by
  rw [← h]
  exact attempted alloc w.decoder w.input w.sink hready

end Decoder

end Decompression
