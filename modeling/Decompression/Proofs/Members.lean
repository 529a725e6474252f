import Decompression.Proofs.Recorder
import Decompression.Proofs.Simulation

/-!
# Further Members

Starting a further member of a stream is starting over, but for the offset. A decoder that
has finished a stream and is given more input does from there on what a decoder does that
has only just been created: it makes the same calls on its sink and reports the same, with
every offset larger by what it has put out before. Where it fails it is reset, and then the
two are the same.

The two decoders need not have the same sessions. The codec may give out sessions that
differ, as long as no run tells them apart; `Codec.Alike` is that they behave the same
forever. Nor need the sinks be the same, if nothing but the offsets they have been told
could be the difference.

## Main definitions

* `Codec.Alike`, `Codec.Restarts`: Sessions that behave the same; fresh ones always do.
* `Blind`: Sinks that do not care for offsets.
* `Decoder.Fresh`: A decoder that has just been reset.
* `Feed`, `play`: Calls on a decoder with a sink, up to the first failure.
* `PlayedAhead`: What is left by two decoders, one of which is ahead.

## Theorems

* `push_of_finished`: More input for a finished decoder starts a further member.
* `play_alike`: Decoders that differ in their offsets are called on alike.
-/

namespace Decompression

open Decoder Loop

variable {S M : Type} {c : Codec S M}

/-! ## Entering a further member -/

section Entering

variable {σ : Type} {d entered : Decoder c} {input : Cursor} {events : List Event}

theorem enter_of_running (h : d.finished = false) : d.enter input = .ok (.go [] d) := by
  simp only [enter, h, Bool.false_eq_true, if_false]

theorem enter_of_finished {s : S} {memory : M} (hfinished : d.finished = true)
    (hmultiple : d.multipleMembers = true) (hbounds : input.InBounds) (hmore : input.rest ≠ [])
    (hstart : c.start d.retire = (.ok s, memory)) :
    d.enter input =
      .ok (.go [.nextMember d.outputOffset] (d.startedAt d.outputOffset s memory)) := by
  have hrest : input.rest? = some input.rest := by simp only [Cursor.rest?, if_pos hbounds]
  unfold enter
  rw [if_pos hfinished, hrest]
  rcases List.exists_cons_of_ne_nil hmore with ⟨b, bs, hcons⟩
  rw [hcons]
  simp only [hmultiple, if_true, nextMember_of_ok hstart]

-- What is noted on entering comes before everything else.
theorem attempt_of_enter (alloc : Allocator σ) (sink : σ)
    (h : d.enter input = .ok (.go events entered))
    (hagain : entered.enter input = .ok (.go [] entered)) :
    attempt alloc ⟨d, input, sink⟩ =
      (attempt alloc ⟨entered, input, sink⟩).map (roundAfter events) := by
  simp only [attempt, h, hagain]
  rcases entered.request alloc sink with ⟨error | buffer, served⟩
  · rfl
  · cases entered.lend? with
    | none => rfl
    | some lent =>
        dsimp only
        rcases lent.2.runSession lent.1 input buffer with fault | ⟨next | o, input'⟩
        · rfl
        · simp only [Except.map, roundAfter, List.append_nil]
        · rfl

theorem step_of_enter (fuel : Nat) (alloc : Allocator σ) (sink : σ)
    (h : d.enter input = .ok (.go events entered))
    (hagain : entered.enter input = .ok (.go [] entered))
    (hready : d.isReady = true) (hready' : entered.isReady = true) :
    Decoder.step fuel alloc ⟨d, input, sink⟩ =
      preceded events (Decoder.step fuel alloc ⟨entered, input, sink⟩) := by
  simp only [Decoder.step, hready, hready', if_true]
  exact run_of_first (attempt_of_enter alloc sink h hagain) fuel

theorem pushCursor_of_enter [Sink σ] (fuel : Nat) (sink : σ)
    (h : d.enter input = .ok (.go events entered))
    (hagain : entered.enter input = .ok (.go [] entered))
    (hready : d.isReady = true) (hready' : entered.isReady = true) :
    pushCursor fuel ⟨d, input, sink⟩ =
      preceded events (pushCursor fuel ⟨entered, input, sink⟩) := by
  refine run_of_first ?_ fuel
  rw [pushRound_eq, pushRound_eq, step_of_enter fuel Sink.alloc sink h hagain hready hready',
    preceded_eq_map, map_map, map_map]
  simp only [takeProgress_append]

end Entering

/-! ## Fresh sessions -/

section Sessions

/-- Two sessions that no run tells apart. -/
def Codec.Alike (c : Codec S M) (s₁ s₂ : S) : Prop :=
  ∃ same : S → S → Prop, same s₁ s₂ ∧ ∀ t₁ t₂, same t₁ t₂ → c.totalOut t₁ = c.totalOut t₂ ∧
    ∀ (input : Cursor) (buffer : List UInt8), input.InBounds → buffer ≠ [] →
      SteppedAlike same (c.step t₁ input (.ofBytes buffer)) (c.step t₂ input (.ofBytes buffer))

/-- A session can always be started, and fresh sessions behave alike. -/
structure Codec.Restarts (c : Codec S M) : Prop where
  start : ∀ memory, ∃ s memory', c.start memory = (.ok s, memory')
  alike : ∀ {m₁ m₁' m₂ m₂' : M} {s₁ s₂ : S}, c.start m₁ = (.ok s₁, m₁') →
    c.start m₂ = (.ok s₂, m₂') → c.Alike s₁ s₂

/-- Sessions that behave alike correspond, whatever the codec remembers. -/
def restarting (h : c.Restarts) : Likeness c c where
  session := c.Alike
  memory _ _ := True
  start := by
    intro m₁ m₂ _
    rcases h.start m₁ with ⟨s₁, m₁', hstart₁⟩
    rcases h.start m₂ with ⟨s₂, m₂', hstart₂⟩
    exact Or.inl ⟨s₁, s₂, m₁', m₂', hstart₁, hstart₂, h.alike hstart₁ hstart₂, trivial⟩
  stop _ _ := trivial
  step := by
    rintro s₁ s₂ ⟨same, hs, hsame⟩ input buffer hbounds hroom
    have hstep := (hsame s₁ s₂ hs).2 input buffer hbounds hroom
    exact ⟨⟨same, hstep.session, hsame⟩, hstep.input, hstep.output, hstep.outcome⟩
  total := by
    rintro s₁ s₂ ⟨same, hs, hsame⟩
    exact (hsame s₁ s₂ hs).1

/-- A decoder that has just been reset. -/
structure Decoder.Fresh (d : Decoder c) : Prop where
  session : ∃ m s m', c.start m = (.ok s, m') ∧ d.session = some s
  outputOffset : d.outputOffset = 0
  memberBase : d.memberBase = 0
  consumed : d.consumed = false
  finished : d.finished = false

-- A decoder at a further member differs from a fresh one by its offset alone.
theorem startedAt_ahead (h : c.Restarts) {d f : Decoder c} (hf : f.Fresh)
    (hsize : f.bufferSize = d.bufferSize) (hmultiple : f.multipleMembers = d.multipleMembers)
    {m m' : M} {s : S} (hstart : c.start m = (.ok s, m')) (offset : Nat) :
    (restarting h).Shifted offset (d.startedAt offset s m') f := by
  rcases hf.session with ⟨m₂, s₂, m₂', hstart₂, hsession⟩
  refine ⟨trivial, ?_, ?_, ?_, hf.consumed.symm, hf.finished.symm, hsize.symm, hmultiple.symm⟩
  · rw [hsession]
    exact .some (h.alike hstart hstart₂)
  · rw [hf.outputOffset, Nat.zero_add]
    rfl
  · rw [hf.memberBase, Nat.zero_add]
    rfl

end Sessions

/-! ## Sinks that do not care for offsets -/

section Sinks

variable {σ : Type} [Sink σ]

/-- Sinks that differ only in the offsets they have been told behave the same. -/
structure Blind (R : σ → σ → Prop) : Prop where
  refl : ∀ k, R k k
  trans : ∀ {k₁ k₂ k₃}, R k₁ k₂ → R k₂ k₃ → R k₁ k₃
  alloc : ∀ {k₁ k₂}, R k₁ k₂ → ∀ offset₁ offset₂ size,
    (Sink.alloc k₁ offset₁ size).1 = (Sink.alloc k₂ offset₂ size).1 ∧
      R (Sink.alloc k₁ offset₁ size).2 (Sink.alloc k₂ offset₂ size).2
  push : ∀ {k₁ k₂}, R k₁ k₂ → ∀ {chunk₁ chunk₂ : Chunk}, chunk₁.data = chunk₂.data →
    (Sink.push k₁ chunk₁).1 = (Sink.push k₂ chunk₂).1 ∧
      R (Sink.push k₁ chunk₁).2 (Sink.push k₂ chunk₂).2

def SinkCall.shift (o : Nat) : SinkCall → SinkCall
  | .alloc offset size answer => .alloc (offset + o) size answer
  | .push chunk answer => .push (chunk.shift o) answer

/-- The first sink was called like the second one, further on by `o`, after some earlier calls. -/
structure Ahead (R : σ → σ → Prop) (earlier : List SinkCall) (o : Nat)
    (k₁ k₂ : Recorder σ) : Prop where
  inner : R k₁.inner k₂.inner
  calls : k₁.calls = earlier ++ k₂.calls.map (SinkCall.shift o)

variable {R : σ → σ → Prop} {earlier : List SinkCall} {o : Nat}

theorem ahead_serves (hR : Blind R) :
    Likeness.ServesAlike (Ahead R earlier o) o Sink.alloc Sink.alloc := by
  rintro k₁ k₂ ⟨hinner, hcalls⟩ offset size
  rcases hR.alloc hinner (offset + o) offset size with ⟨hanswer, hinner'⟩
  refine ⟨hanswer, hinner', ?_⟩
  rw [Recorder.alloc_eq, Recorder.alloc_eq, hcalls, hanswer]
  simp only [List.map_append, List.map_cons, List.map_nil, SinkCall.shift, List.append_assoc]

theorem ahead_takes (hR : Blind R) : Likeness.TakesAlike (Ahead R earlier o) o := by
  rintro k₁ k₂ ⟨hinner, hcalls⟩ chunk
  have hdata : (chunk.shift o).data = chunk.data := rfl
  rcases hR.push hinner hdata with ⟨hanswer, hinner'⟩
  refine ⟨hanswer, hinner', ?_⟩
  rw [Recorder.push_eq, Recorder.push_eq, hcalls, hanswer]
  simp only [List.map_append, List.map_cons, List.map_nil, SinkCall.shift, List.append_assoc]

omit [Sink σ] in
theorem ahead_ofSink {k₁ k₂ : σ} (h : R k₁ k₂) (o : Nat) :
    Ahead R [] o (Recorder.ofSink k₁) (Recorder.ofSink k₂) :=
  ⟨h, rfl⟩

end Sinks

/-! ## Calls up to the first failure -/

section Calls

/-- A call on a decoder with a sink, or another sink for the pushes that follow. -/
inductive Feed (σ : Type) where
  | push (bytes : List UInt8)
  | finish
  | setBufferSize (size : BufferSize)
  | useSink (sink : σ)

/-- What a call reported, and the output offset after it. A push also says whether the stream
    is over. -/
structure Reply where
  answer : Except DecodeError (Option Bool)
  outputOffset : Nat

/-- What some calls reported and noted, and what they left behind. -/
structure Played (c : Codec S M) (σ : Type) where
  replies : List Reply
  events : List Event
  decoder : Decoder c
  sink : Recorder σ

/-- The call failed. -/
def Reply.failed (r : Reply) : Bool :=
  match r.answer with
  | .ok _ => false
  | .error _ => true

def Reply.shift (o : Nat) (r : Reply) : Reply :=
  ⟨shiftResult id o r.answer, r.outputOffset + shiftAfter o r.answer⟩

namespace Played

variable {σ : Type}

def failed (p : Played c σ) : Bool :=
  p.replies.any Reply.failed

/-- How far a decoder is still ahead after these calls. -/
def lead (o : Nat) (p : Played c σ) : Nat :=
  if p.replies.any fun r => startedOver r.answer then 0 else o

/-- With some calls that were made before. -/
def after (p earlier : Played c σ) : Played c σ :=
  { p with replies := earlier.replies ++ p.replies, events := earlier.events ++ p.events }

/-- With some events that were noted before. -/
def noting (events : List Event) (p : Played c σ) : Played c σ :=
  { p with events := events ++ p.events }

def ofPush (r : Logged Event (Turn c Cursor (Recorder σ) Bool)) : Played c σ :=
  ⟨[⟨r.result.result.map some, r.result.decoder.outputOffset⟩], r.events, r.result.decoder,
    r.result.sink⟩

theorem ofPush_preceded (events : List Event)
    (r : Except Fault (Logged Event (Turn c Cursor (Recorder σ) Bool))) :
    (preceded events r).map ofPush = (r.map ofPush).map (noting events) := by
  cases r <;> rfl

theorem noting_after (q p : Played c σ) (events : List Event) :
    q.after (p.noting events) = (q.after p).noting events := by
  simp only [after, noting, List.append_assoc]

end Played

variable {σ : Type}

/-- The same was reported and noted, but for the offsets, and the decoders are apart by as much
    as before; after a failure they are on a par. -/
structure PlayedAhead (h : c.Restarts) (R : σ → σ → Prop) (noted : List Event) (o : Nat)
    (p₁ p₂ : Played c σ) : Prop where
  replies : p₁.replies = p₂.replies.map (Reply.shift o)
  events : p₁.events = noted ++ p₂.events.map (Event.shift o)
  decoder : (restarting h).Shifted (p₂.lead o) p₁.decoder p₂.decoder
  sink : Ahead R [] o p₁.sink p₂.sink

theorem startedOver_map {α β : Type} (f : α → β) (result : Except DecodeError α) :
    startedOver (result.map f) = startedOver result := by
  cases result <;> rfl

theorem shiftAfter_map {α β : Type} (f : α → β) (o : Nat) (result : Except DecodeError α) :
    shiftAfter o (result.map f) = shiftAfter o result := by
  rw [shiftAfter, shiftAfter, startedOver_map]

theorem shiftResult_map {α β : Type} (f : α → β) (o : Nat) (result : Except DecodeError α) :
    (shiftResult id o result).map f = shiftResult id o (result.map f) := by
  cases result <;> rfl

theorem Reply.failed_shift (o : Nat) (r : Reply) : (r.shift o).failed = r.failed := by
  rcases r with ⟨error | answer, offset⟩ <;> rfl

theorem startedOver_of_not_failed {r : Reply} (h : r.failed = false) :
    startedOver r.answer = false := by
  rcases r with ⟨error | answer, offset⟩
  · cases h
  · rfl

variable {R : σ → σ → Prop} {h : c.Restarts} {o : Nat} {noted : List Event} {p₁ p₂ : Played c σ}

theorem PlayedAhead.failed (hp : PlayedAhead h R noted o p₁ p₂) : p₁.failed = p₂.failed := by
  unfold Played.failed
  rw [hp.replies, List.any_map]
  congr 1
  funext r
  exact r.failed_shift o

-- As long as nothing fails the lead is kept.
theorem lead_of_not_failed (hp : p₂.failed = false) : p₂.lead o = o := by
  unfold Played.lead
  rw [if_neg]
  intro hany
  rcases List.any_eq_true.mp hany with ⟨r, hr, hover⟩
  have hfailed : r.failed = false := by
    cases hf : r.failed with
    | false => rfl
    | true => rw [Played.failed, List.any_eq_true.mpr ⟨r, hr, hf⟩] at hp; cases hp
  rw [startedOver_of_not_failed hfailed] at hover
  cases hover

theorem lead_after {q : Played c σ} (hp : p₂.failed = false) : (q.after p₂).lead o = q.lead o := by
  have hlead : p₂.replies.any (fun r => startedOver r.answer) = false := by
    rw [List.any_eq_false]
    intro r hr
    have hfailed := List.any_eq_false.mp hp r hr
    rw [startedOver_of_not_failed (Bool.not_eq_true _ ▸ hfailed)]
    exact Bool.false_ne_true
  unfold Played.lead Played.after
  rw [List.any_append, hlead, Bool.false_or]

theorem PlayedAhead.after {q₁ q₂ : Played c σ} (hp : PlayedAhead h R [] o p₁ p₂)
    (hfailed : p₂.failed = false) (hq : PlayedAhead h R [] o q₁ q₂) :
    PlayedAhead h R [] o (q₁.after p₁) (q₂.after p₂) where
  replies := by simp only [Played.after, hp.replies, hq.replies, List.map_append]
  events := by simp only [Played.after, hp.events, hq.events, List.map_append, List.nil_append]
  decoder := by
    rw [lead_after hfailed]
    exact hq.decoder
  sink := hq.sink

-- What a single call leaves behind.
theorem playedAhead_of_reply (answer : Except DecodeError (Option Bool)) (events : List Event)
    {d₁ d₂ : Decoder c} {k₁ k₂ : Recorder σ}
    (hd : (restarting h).Shifted (shiftAfter o answer) d₁ d₂) (hk : Ahead R [] o k₁ k₂) :
    PlayedAhead h R [] o
      ⟨[⟨shiftResult id o answer, d₁.outputOffset⟩], events.map (Event.shift o), d₁, k₁⟩
      ⟨[⟨answer, d₂.outputOffset⟩], events, d₂, k₂⟩ where
  replies := by
    simp only [List.map_cons, List.map_nil, Reply.shift, hd.outputOffset]
  events := rfl
  decoder := by
    have hlead : Played.lead o (⟨[⟨answer, d₂.outputOffset⟩], events, d₂, k₂⟩ : Played c σ) =
        shiftAfter o answer := by
      simp only [Played.lead, List.any_cons, List.any_nil, Bool.or_false, shiftAfter]
    rw [hlead]
    exact hd
  sink := hk

variable [Sink σ]

def Feed.run (fuel : Nat) (d : Decoder c) (sink : Recorder σ) : Feed σ → Except Fault (Played c σ)
  | .push bytes => (d.push fuel bytes sink).map Played.ofPush
  | .finish => .ok ⟨[⟨d.finish.result.map fun _ => none, d.finish.decoder.outputOffset⟩],
    d.finish.events, d.finish.decoder, sink⟩
  | .setBufferSize size =>
    .ok ⟨[⟨.ok none, d.outputOffset⟩], [], { d with bufferSize := size }, sink⟩
  | .useSink k => .ok ⟨[⟨.ok none, d.outputOffset⟩], [], d, { sink with inner := k }⟩

/-- Makes calls one after another, up to the first that fails. -/
def play (fuel : Nat) (d : Decoder c) (sink : Recorder σ) : List (Feed σ) →
    Except Fault (Played c σ)
  | [] => .ok ⟨[], [], d, sink⟩
  | call :: calls => (call.run fuel d sink).bind fun p =>
    if p.failed then .ok p else (play fuel p.decoder p.sink calls).map fun q => q.after p

theorem feed_alike (hR : Blind R) (fuel : Nat) {d₁ d₂ : Decoder c} {k₁ k₂ : Recorder σ}
    (hd : (restarting h).Shifted o d₁ d₂) (hk : Ahead R [] o k₁ k₂) (call : Feed σ) :
    Agree o Played.events (PlayedAhead h R [] o) (call.run fuel d₁ k₁) (call.run fuel d₂ k₂) := by
  cases call with
  | push bytes =>
      have hpush : Agree o Logged.events
          (LoggedAlike o ((restarting h).TurnShifted (Ahead R [] o) id o))
          (d₁.push fuel bytes k₁) (d₂.push fuel bytes k₂) :=
        Likeness.push_alike (ahead_serves hR) (ahead_takes hR) fuel ⟨hd, rfl, hk⟩
      refine hpush.map (fun r₁ r₂ hr => ?_) fun r => List.Subset.refl r.events
      unfold Played.ofPush
      rw [hr.events, hr.result.result, shiftResult_map]
      refine playedAhead_of_reply _ r₂.events ?_ hr.result.sink
      rw [shiftAfter_map]
      exact hr.result.decoder
  | finish =>
      have hfinish := hd.finish
      simp only [Feed.run, hfinish.events, hfinish.result, shiftResult_map]
      refine .ok (playedAhead_of_reply _ _ ?_ hk)
      rw [shiftAfter_map]
      exact hfinish.decoder
  | setBufferSize size =>
      exact .ok (playedAhead_of_reply (.ok none) [] (hd.resized size) hk)
  | useSink k => exact .ok (playedAhead_of_reply (.ok none) [] hd ⟨hR.refl k, hk.calls⟩)

/-- Decoders that differ in their offsets are called on alike. -/
theorem play_alike (hR : Blind R) (fuel : Nat) (calls : List (Feed σ)) :
    ∀ {d₁ d₂ : Decoder c} {k₁ k₂ : Recorder σ}, (restarting h).Shifted o d₁ d₂ →
      Ahead R [] o k₁ k₂ →
      Agree o Played.events (PlayedAhead h R [] o) (play fuel d₁ k₁ calls)
        (play fuel d₂ k₂ calls) := by
  induction calls with
  | nil =>
      intro d₁ d₂ k₁ k₂ hd hk
      exact .ok ⟨rfl, rfl, hd, hk⟩
  | cons call calls ih =>
      intro d₁ d₂ k₁ k₂ hd hk
      refine (feed_alike hR fuel hd hk call).bind (fun p₁ p₂ hp => ?_) fun p q hq => ?_
      · rw [hp.failed]
        by_cases hfailed : p₂.failed = true
        · rw [if_pos hfailed, if_pos hfailed]
          exact .ok hp
        · rw [if_neg hfailed, if_neg hfailed]
          rw [Bool.not_eq_true] at hfailed
          have hdecoder := hp.decoder
          rw [lead_of_not_failed hfailed] at hdecoder
          refine (ih hdecoder hp.sink).map (fun q₁ q₂ hq => hp.after hfailed hq) fun q => ?_
          exact List.subset_append_right p₂.events q.events
      · by_cases hfailed : p.failed = true
        · rw [if_pos hfailed] at hq
          cases hq
          exact List.Subset.refl p.events
        · rw [if_neg hfailed] at hq
          rcases map_eq_ok hq with ⟨q', _, rfl⟩
          exact List.subset_append_left p.events q'.events

/-- More input for a finished decoder starts a further member. -/
theorem play_of_finished {d : Decoder c} {s : S} {memory : M} (hready : d.isReady = true)
    (hfinished : d.finished = true) (hmultiple : d.multipleMembers = true)
    (hstart : c.start d.retire = (.ok s, memory)) {bytes : List UInt8} (hmore : bytes ≠ [])
    (fuel : Nat) (sink : Recorder σ) (calls : List (Feed σ)) :
    play fuel d sink (.push bytes :: calls) =
      (play fuel (d.startedAt d.outputOffset s memory) sink (.push bytes :: calls)).map
        fun p => p.noting [.nextMember d.outputOffset] := by
  have hpush : d.push fuel bytes sink = preceded [.nextMember d.outputOffset]
      ((d.startedAt d.outputOffset s memory).push fuel bytes sink) :=
    pushCursor_of_enter fuel sink
      (enter_of_finished hfinished hmultiple (Nat.zero_le _) hmore hstart)
      (enter_of_running rfl) hready rfl
  simp only [play, Feed.run, hpush, Played.ofPush_preceded]
  cases ((d.startedAt d.outputOffset s memory).push fuel bytes sink).map Played.ofPush with
  | error fault => rfl
  | ok p =>
      simp only [Except.map, Except.bind, show (p.noting [.nextMember d.outputOffset]).failed =
        p.failed from rfl]
      by_cases hfailed : p.failed = true
      · simp only [if_pos hfailed]
      · simp only [if_neg hfailed]
        change _ = ((play fuel p.decoder p.sink calls).map fun q => q.after p).map _
        rw [map_map]
        simp only [← Played.noting_after]
        rfl

/-- A decoder that starts a further member goes on like a fresh one, but for the offset. -/
theorem restart_alike (hR : Blind R) (h : c.Restarts) {d f : Decoder c} (hready : d.isReady = true)
    (hfinished : d.finished = true) (hmultiple : d.multipleMembers = true) (hf : f.Fresh)
    (hsize : f.bufferSize = d.bufferSize) (hconfig : f.multipleMembers = d.multipleMembers)
    {bytes : List UInt8} (hmore : bytes ≠ []) {k₁ k₂ : σ} (hk : R k₁ k₂) (fuel : Nat)
    (calls : List (Feed σ)) :
    Agree d.outputOffset Played.events
      (PlayedAhead h R [.nextMember d.outputOffset] d.outputOffset)
      (play fuel d (Recorder.ofSink k₁) (.push bytes :: calls))
      (play fuel f (Recorder.ofSink k₂) (.push bytes :: calls)) := by
  rcases h.start d.retire with ⟨s, memory, hstart⟩
  have hahead := startedAt_ahead h hf hsize hconfig hstart d.outputOffset
  have hplay := play_alike hR fuel (.push bytes :: calls) hahead (ahead_ofSink hk d.outputOffset)
  rw [play_of_finished hready hfinished hmultiple hstart hmore]
  exact hplay.map_left fun p₁ p₂ hp =>
    ⟨hp.replies, by rw [Played.noting, hp.events]; rfl, hp.decoder, hp.sink⟩

end Calls

end Decompression
