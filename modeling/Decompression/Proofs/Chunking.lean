import Decompression.Proofs.Copier
import Decompression.Proofs.Drive
import Decompression.Proofs.Recorder
import Decompression.Proofs.Transduction

/-!
# Cuts and Buffer Sizes Do Not Matter

A byte string can be pushed in one piece or in many, into large buffers or into small
ones. What comes of it is the same, as long as the primitive is a transduction: the
same bytes come out, the same end or the same failure is met.

The proof compares no two runs. A run is followed by `Tracked`, which says where in the
whole string it stands: how many complete members lie behind, what the current session
has read and written of its own, and which bytes are still to come. The invariant that
carries the argument is `reads`: whatever the string from the current member on decodes
to, the whole string decodes to, with the output of the members behind put in front.
When a run is over it has therefore found what the whole string decodes to, and
`reads_unique` says that another run can have found nothing else.

Output may lag behind input in a session, a stream may end exactly where a piece does,
and a further member may begin one push later than the one before it ended. None of
this needs a case of its own: the session and what it has read and written are carried
along as they are, from round to round and from push to push.

## Main definitions

* `Piece`, `Decoder.feed`: A piece of input, and pushing pieces one after another.
* `Tracked`: Where in a string a decoder stands.
* `SameFeed`: Two runs came to the same.

## Theorems

* `Tracked.nextMember`, `Tracked.afterStep`: Where it stands after a further member was
  started, and after a step.
* `drive_follows`: One round of a push.
* `feed_follows`: All pushes.
* `feed_independent`: Cuts and buffer sizes do not matter.
-/

namespace Decompression

open Decoder Loop

variable {S M σ : Type} {c : Codec S M}

/-- A piece of input, and the most that a chunk may hold while it is decoded. -/
structure Piece where
  size : BufferSize
  bytes : List UInt8

namespace Decoder

variable [Sink σ]

/-- Pushes one piece. -/
def pushPiece (fuel : Nat) (d : Decoder c) (sink : σ) (p : Piece) :
    Except Fault (Logged Event (Turn c Cursor σ Bool)) :=
  push { d with bufferSize := p.size } fuel p.bytes sink

/-- Pushes pieces one after another, up to the first failure. Without several members
    the end of the stream is where it stops, too, unless it is to `insist`. -/
def feed (fuel : Nat) (insist : Bool) (d : Decoder c) (sink : σ) (p : Piece) :
    List Piece → Except Fault (Turn c Cursor σ Bool)
  | [] => (pushPiece fuel d sink p).map Logged.result
  | q :: rest =>
    match pushPiece fuel d sink p with
    | .error fault => .error fault
    | .ok ⟨_, turn⟩ =>
      match turn.result with
      | .error _ => .ok turn
      | .ok ended =>
        if ended && !insist && !turn.decoder.multipleMembers then .ok turn
        else feed fuel insist turn.decoder turn.sink q rest

/-- Pushes pieces with a decoder that has just been reset, and records what it hands out. -/
def feedAnew (fuel : Nat) (insist : Bool) (d : Decoder c) (sink : σ) (p : Piece)
    (rest : List Piece) : Except Fault (Turn c Cursor (Recorder σ) Bool) :=
  feed fuel insist d.reset.decoder (Recorder.ofSink sink) p rest

end Decoder

/-- The string may decode to more bytes than there are offsets. -/
def Oversized (T : Transduction) (multiple : Bool) (x : List UInt8) : Prop :=
  ∃ out, Yields T multiple x out ∧ offsetLimit ≤ out.length

/-! ## Where a decoder stands -/

/-- The decoder stands in the string `x`. Complete members with output `done` lie behind
    it; its session has read `u` and written `v` since; `z` is still to come. -/
structure Tracked (T : Transduction) (multiple : Bool) (x : List UInt8) (d : Decoder c) (s : S)
    (done u v z : List UInt8) : Prop where
  session : d.session = some s
  decoded : Decoded c s u v d.finished
  base : d.memberBase = done.length
  offset : d.outputOffset = done.length + v.length
  total : c.totalOut s = v.length
  ended : d.finished = true → T.stop u = some .ended ∧ v = T.output u
  consumed : d.consumed = true ↔ u ≠ []
  members : d.multipleMembers = multiple
  begun : u ++ z = [] ↔ x = []
  reads : ∀ r, Reads T multiple (u ++ z) r → Reads T multiple x (r.after done)
  yields : ∀ out, Yields T multiple (u ++ z) out → Yields T multiple x (done ++ out)

namespace Tracked

variable {T : Transduction} {multiple : Bool} {x : List UInt8} {d : Decoder c} {s : S}
  {done u v z : List UInt8}

/-- A decoder with a fresh session stands at the beginning. -/
theorem ofFresh {memory memory' : M} (hT : Transduces c T)
    (hstart : c.start memory = (.ok s, memory')) (hsession : d.session = some s)
    (hfinished : d.finished = false) (hconsumed : d.consumed = false)
    (hbase : d.memberBase = 0) (hoffset : d.outputOffset = 0)
    (hmembers : d.multipleMembers = multiple) : Tracked T multiple x d s [] [] [] x where
  session := hsession
  decoded := by rw [hfinished]; exact .fresh hstart
  base := hbase
  offset := hoffset
  total := hT.fresh hstart
  ended := fun h => by rw [hfinished] at h; cases h
  consumed := by simp only [hconsumed, Bool.false_eq_true, ne_eq, not_true_eq_false]
  members := hmembers
  begun := Iff.rfl
  reads := fun r h => by rw [Reading.after_nil]; exact h
  yields := fun out h => h

/-- A further member begins: what the session wrote lies behind, and the new one has
    read and written nothing. -/
theorem nextMember (hT : Transduces c T) (h : Tracked T multiple x d s done u v z)
    (hfinished : d.finished = true) (hmultiple : d.multipleMembers = true) (hz : z ≠ [])
    {s' : S} {memory : M} (hstart : c.start d.retire = (.ok s', memory)) :
    Tracked T multiple x (d.startedAt d.outputOffset s' memory) s' (done ++ v) [] [] z where
  session := rfl
  decoded := .fresh hstart
  base := by rw [List.length_append]; exact h.offset
  offset := by rw [List.length_append]; exact h.offset
  total := hT.fresh hstart
  ended := fun h => by cases h
  consumed := by simp only [startedAt, Bool.false_eq_true, ne_eq, not_true_eq_false]
  members := h.members
  begun := by
    have hx := h.begun
    simp only [List.append_eq_nil_iff, hz, and_false, false_iff] at hx
    simp only [List.nil_append, hz, hx]
  reads := fun r hr => by
    rcases h.ended hfinished with ⟨hstop, hv⟩
    rw [Reading.after_append, hv]
    exact h.reads _ (.member (by rw [← h.members]; exact hmultiple) hstop hz hr)
  yields := fun out hout => by
    rcases h.ended hfinished with ⟨hstop, hv⟩
    rw [List.append_assoc, hv]
    exact h.yields _ (.member (by rw [← h.members]; exact hmultiple) hstop hout)

variable {input : Cursor} {later : List UInt8} {stepped : Stepped S} {status : Status}
  {buffer : List UInt8}

/-- After a successful step, the bytes read move from what is to come to the session, and
    the bytes written are counted. -/
theorem afterStep (h : Tracked T multiple x d s done u v (input.rest ++ later))
    (hadmits : T.Admits c s u v input stepped) (hfinished : d.finished = false)
    (hbounds : input.InBounds) (hroom : buffer ≠ [])
    (hstep : c.step s input (.ofBytes buffer) = stepped) (houtcome : stepped.outcome = .ok status) :
    Tracked T multiple x
      ({ d.afterStep input stepped status with
        outputOffset := d.outputOffset + stepped.output.front.length } : Decoder c)
      stepped.session done (u ++ input.between stepped.input) (v ++ stepped.output.front)
      (stepped.input.rest ++ later) := by
  have hsplit : u ++ input.between stepped.input ++ (stepped.input.rest ++ later) =
      u ++ (input.rest ++ later) := by
    rw [Cursor.rest_eq_between_append hadmits.bytes hadmits.forward]
    simp only [List.append_assoc]
  have hover : (d.afterStep input stepped status).finished = decide (status = .streamEnd) := by
    cases status with
    | progress => exact hfinished
    | streamEnd => rfl
  have hdecoded := Decoded.step h.decoded hbounds hroom hstep houtcome
  rw [hfinished, Bool.false_or] at hdecoded
  constructor
  · exact afterStep_session
  · simp only [hover]
    exact hdecoded
  · simp only [afterStep_memberBase]
    exact h.base
  · simp only [h.offset, List.length_append, Nat.add_assoc]
  · rw [hadmits.count status houtcome, h.total, List.length_append]
  · intro hended
    simp only [hover, decide_eq_true_eq] at hended
    exact hadmits.ended (by rw [houtcome, hended])
  · have hflag : (d.afterStep input stepped status).consumed =
        (d.consumed || decide (input.index < stepped.input.index)) := by
      cases status <;> rfl
    have hbetween := Cursor.between_eq_nil_iff hadmits.bytes hadmits.read
    simp only [hflag, Bool.or_eq_true, decide_eq_true_eq, h.consumed, ne_eq,
      List.append_eq_nil_iff, hbetween]
    by_cases hu : u = []
    · simp only [hu, not_true_eq_false, false_or, true_and, Decidable.not_not]
    · simp only [hu, not_false_eq_true, true_or, false_and]
  · simp only [afterStep_multipleMembers]
    exact h.members
  · rw [hsplit]
    exact h.begun
  · rw [hsplit]
    exact h.reads
  · rw [hsplit]
    exact h.yields

/-- A step that writes nothing leaves the offset alone. -/
theorem afterStep_of_nothing (h : Tracked T multiple x d s done u v (input.rest ++ later))
    (hadmits : T.Admits c s u v input stepped) (hfinished : d.finished = false)
    (hbounds : input.InBounds) (hroom : buffer ≠ [])
    (hstep : c.step s input (.ofBytes buffer) = stepped) (houtcome : stepped.outcome = .ok status)
    (hnothing : stepped.output.front = []) :
    Tracked T multiple x (d.afterStep input stepped status) stepped.session done
      (u ++ input.between stepped.input) v (stepped.input.rest ++ later) := by
  have hafter := h.afterStep hadmits hfinished hbounds hroom hstep houtcome
  rw [hnothing, List.append_nil] at hafter
  have hsame : ({ d.afterStep input stepped status with
      outputOffset := d.outputOffset + ([] : List UInt8).length } : Decoder c) =
      d.afterStep input stepped status := by
    cases status <;> rfl
  rwa [hsame] at hafter

/-- A session that is over and is run once more leaves everything where it was. -/
theorem afterRest {z : List UInt8} (h : Tracked T multiple x d s done u v z)
    (hfinished : d.finished = true) (hbounds : input.InBounds) (hroom : buffer ≠ [])
    (hstep : c.step s input (.ofBytes buffer) = stepped) (hinput : stepped.input = input)
    (houtcome : stepped.outcome = .ok .streamEnd) (hnothing : stepped.output.front = [])
    (htotal : c.totalOut stepped.session = c.totalOut s) :
    Tracked T multiple x (d.afterStep input stepped .streamEnd) stepped.session done u v z := by
  have hdecoded := Decoded.step h.decoded hbounds hroom hstep houtcome
  rw [hinput, Cursor.between_self, hnothing, List.append_nil, List.append_nil, hfinished,
    Bool.true_or] at hdecoded
  exact {
    session := rfl
    decoded := hdecoded
    base := h.base
    offset := h.offset
    total := htotal.trans h.total
    ended := fun _ => h.ended hfinished
    consumed := by
      rw [← h.consumed]
      simp only [Decoder.afterStep, returnSession, noteStatus, hinput, Nat.lt_irrefl,
        decide_false, Bool.or_false]
    members := h.members
    begun := h.begun
    reads := h.reads
    yields := h.yields }

/-- Another buffer size makes no difference to where the decoder stands. -/
theorem resized {z : List UInt8} (h : Tracked T multiple x d s done u v z) (size : BufferSize) :
    Tracked T multiple x ({ d with bufferSize := size } : Decoder c) s done u v z :=
  ⟨h.session, h.decoded, h.base, h.offset, h.total, h.ended, h.consumed, h.members, h.begun,
    h.reads, h.yields⟩

/-- Where the session writes past the range of offsets, the whole string is too long. -/
theorem oversized (h : Tracked T multiple x d s done u v (input.rest ++ later))
    (hadmits : T.Admits c s u v input stepped) (houtcome : stepped.outcome = .ok status)
    (hrange : ¬ d.outputOffset + stepped.output.front.length < offsetLimit) :
    Oversized T multiple x := by
  have hbegins : v ++ stepped.output.front <+: T.output (u ++ (input.rest ++ later)) := by
    refine (hadmits.faithful status houtcome).trans (T.output_mono ?_)
    rw [Cursor.rest_eq_between_append hadmits.bytes hadmits.forward]
    exact ⟨stepped.input.rest ++ later, by simp only [List.append_assoc]⟩
  refine ⟨_, h.yields _ (.last _), ?_⟩
  have hlength := hbegins.length_le
  rw [List.length_append] at hlength ⊢
  rw [h.offset] at hrange
  omega

end Tracked

/-! ## One round -/

section Rounds

variable (T : Transduction) (multiple : Bool) (x later : List UInt8)

/-- Between two rounds of a push, with input for `later` pushes still to come. -/
structure Underway (w : Scene c Cursor (Recorder σ)) : Prop where
  bounds : w.input.InBounds
  single : w.decoder.finished = true → multiple = true
  stands : ∃ s done u v, Tracked T multiple x w.decoder s done u v (w.input.rest ++ later) ∧
    w.sink.bytes = done ++ v

/-- What a push leaves behind. -/
inductive Pushed (turn : Turn c Cursor (Recorder σ) Bool) : Prop
  -- All input was read, and what it is turned into was written.
  | running {s : S} {done u v : List UInt8} (result : turn.result = .ok false)
      (finished : turn.decoder.finished = false)
      (tracked : Tracked T multiple x turn.decoder s done u v later)
      (bytes : turn.sink.bytes = done ++ v) (running : T.Running u) (all : v = T.output u)
  -- The end of a stream was met; what lies beyond it is left unless there may be members.
  | ended {s : S} {done u v z : List UInt8} (result : turn.result = .ok true)
      (finished : turn.decoder.finished = true)
      (tracked : Tracked T multiple x turn.decoder s done u v z)
      (bytes : turn.sink.bytes = done ++ v) (rest : multiple = true → z = later)
  -- The string cannot be decoded, and the decoder starts over.
  | failed {code : Int} {cause : IoError} {bound : List UInt8}
      (result : turn.result = .error (.decode code cause))
      (reads : Reads T multiple x (.failed bound code)) (bytes : turn.sink.bytes <+: bound)
      (ready : turn.decoder.session ≠ none) (offset : turn.decoder.outputOffset = 0)
      (finished : turn.decoder.finished = false) (consumed : turn.decoder.consumed = false)

variable {T multiple x later}

/-- A decoder that is entered stands where it stood, or at a further member. -/
theorem Underway.entered (hT : Transduces c T) {w : Scene c Cursor (Recorder σ)}
    (h : Underway T multiple x later w) {events : List Event} {entered : Decoder c}
    (henter : Entered w.decoder w.input events entered) :
    ∃ s done u v, Tracked T multiple x entered s done u v (w.input.rest ++ later) ∧
      entered.finished = false ∧ w.sink.bytes = done ++ v := by
  rcases h.stands with ⟨s, done, u, v, htracked, hbytes⟩
  cases henter with
  | stay hstay =>
      refine ⟨s, done, u, v, htracked, ?_, hbytes⟩
      cases hfinished : w.decoder.finished with
      | false => rfl
      | true =>
          have hsingle := (hstay hfinished).2
          rw [htracked.members, h.single hfinished] at hsingle
          cases hsingle
  | member hfinished hmore hmultiple hstart =>
      have hz : w.input.rest ++ later ≠ [] := by
        simp only [ne_eq, List.append_eq_nil_iff, hmore, false_and, not_false_eq_true]
      have hmember := htracked.nextMember hT hfinished hmultiple hz hstart
      exact ⟨_, done ++ v, [], [], hmember, rfl, by rw [hbytes, List.append_nil]⟩

variable [Sink σ]

theorem request_of_accepting (hsink : Accepting σ) (d : Decoder c) (sink : Recorder σ) :
    ∃ buffer served, d.request Sink.alloc sink = (.ok buffer, served) ∧ buffer ≠ [] ∧
      served.bytes = sink.bytes := by
  rcases (Recorder.accepting hsink).alloc sink d.outputOffset d.bufferSize.toNat with
    ⟨buffer, served, halloc, hsize⟩
  refine ⟨buffer, served, by simp only [request, halloc, if_pos hsize], ?_,
    Recorder.bytes_alloc halloc⟩
  have hpos := d.bufferSize.pos
  rw [← hsize] at hpos
  exact List.length_pos_iff.mp hpos

/-- A session that is run follows the transduction from where the decoder stands. -/
theorem Underway.ran (hT : Transduces c T) {d entered : Decoder c} {input : Cursor}
    {sink served : Recorder σ} (h : Underway T multiple x later ⟨d, input, sink⟩)
    {events : List Event} {s : S} {buffer : List UInt8} {stepped : Stepped S}
    (hran : Ran Sink.alloc d input sink events entered s buffer served stepped) :
    ∃ done u v, Tracked T multiple x entered s done u v (input.rest ++ later) ∧
      entered.finished = false ∧ served.bytes = done ++ v ∧ buffer ≠ [] ∧
      T.Admits c s u v input stepped := by
  rcases h.entered hT hran.enter with ⟨s', done, u, v, htracked, hfinished, hbytes⟩
  have hs : s' = s := Option.some.inj (htracked.session.symm.trans hran.session)
  subst hs
  refine ⟨done, u, v, htracked, hfinished, ?_, hran.room, ?_⟩
  · exact (Recorder.bytes_alloc hran.serve).trans hbytes
  · have hdecoded := htracked.decoded
    rw [hfinished] at hdecoded
    rw [← hran.step]
    exact hT.step hdecoded h.bounds hran.room

/-- After a failed step the decoder starts over, and what it wrote before is not too much. -/
theorem pushed_of_failed (hT : Transduces c T) {d entered : Decoder c} {input : Cursor}
    {sink served : Recorder σ} (h : Underway T multiple x later ⟨d, input, sink⟩)
    {events : List Event} {s : S} {buffer : List UInt8} {stepped : Stepped S} {error : StepError}
    (hran : Ran Sink.alloc d input sink events entered s buffer served stepped)
    (houtcome : stepped.outcome = .error error) :
    Pushed T multiple x later
      ⟨⟨(entered.returnSession stepped.session input stepped.input).reset.decoder,
        stepped.input, served⟩, .error (.ofStep error)⟩ := by
  rcases h.ran hT hran with ⟨done, u, v, htracked, hfinished, hbytes, _, hadmits⟩
  rcases hadmits.failed error houtcome with ⟨p, hp, hstop⟩
  have hwhole : u ++ input.rest <+: u ++ (input.rest ++ later) :=
    ⟨later, List.append_assoc u input.rest later⟩
  have hreads := htracked.reads _ (.failed (hp.trans hwhole) hstop)
  have hwithin : v <+: T.output (u ++ (input.rest ++ later)) := by
    have hdecoded := htracked.decoded
    rw [hfinished] at hdecoded
    exact (hdecoded.within hT).trans (T.output_mono (List.prefix_append u _))
  have hbegins : served.bytes <+: done ++ T.output (u ++ (input.rest ++ later)) := by
    rw [hbytes]
    exact (List.prefix_append_right_inj done).mpr hwithin
  rcases reset_cases (entered.returnSession stepped.session input stepped.input) with
    ⟨s', memory, _, hreset⟩ | ⟨cause, memory, hstart, _⟩
  · rw [hreset]
    exact .failed rfl hreads hbegins (by simp only [startedAt, ne_eq, reduceCtorEq,
      not_false_eq_true]) rfl rfl rfl
  · rcases hT.start (entered.returnSession stepped.session input stepped.input).retire with
      ⟨s', memory', hok⟩
    rw [hstart] at hok
    cases hok

-- A decoder that is fed a stream faults only where it runs out of offsets.
theorem oversized_of_fault (hT : Transduces c T) {d : Decoder c} {input : Cursor}
    {sink : Recorder σ} (h : Underway T multiple x later ⟨d, input, sink⟩)
    (hready : d.session ≠ none)
    {fault : Fault} (hattempt : attempt Sink.alloc ⟨d, input, sink⟩ = .error fault) :
    Oversized T multiple x := by
  have hcases := attempted Sink.alloc d input sink hready
  rw [hattempt] at hcases
  cases hcases with
  | lost hlost => exact absurd h.bounds hlost
  | overread hran hread =>
      rcases h.ran hT hran with ⟨_, _, _, _, _, _, _, hadmits⟩
      exact absurd hadmits.read hread
  | overwritten hran _ houtcome hwritten =>
      rcases h.ran hT hran with ⟨_, _, _, _, _, _, _, hadmits⟩
      exact absurd (hadmits.written _ houtcome) hwritten
  | @miscounted _ entered s buffer served stepped status _ hran _ houtcome _ _ hcount _ =>
      rcases h.ran hT hran with ⟨done, u, v, htracked, _, _, _, hadmits⟩
      -- The counts agree, so there must be too many bytes to count.
      have hagree : entered.outputOffset + stepped.output.front.length =
          entered.memberBase + c.totalOut stepped.session := by
        rw [hadmits.count _ houtcome, htracked.offset, htracked.base, htracked.total,
          Nat.add_assoc]
      exact htracked.oversized hadmits houtcome fun hrange => hcount ⟨hagree, hrange⟩

-- After a chunk that was taken, the stream is over or it goes on.
theorem follows_of_chunk (hT : Transduces c T) {d entered : Decoder c} {input : Cursor}
    {sink served taken : Recorder σ} (h : Underway T multiple x later ⟨d, input, sink⟩)
    {events : List Event} {s : S} {buffer : List UInt8} {stepped : Stepped S} {status : Status}
    (hran : Ran Sink.alloc d input sink events entered s buffer served stepped)
    (hread : stepped.input.InBounds) (houtcome : stepped.outcome = .ok status)
    (hpush : Sink.push served ⟨entered.outputOffset, stepped.output.front⟩ = (.ok (), taken)) :
    let next : Scene c Cursor (Recorder σ) := ⟨{ entered.afterStep input stepped status with
      outputOffset := entered.outputOffset + stepped.output.front.length }, stepped.input, taken⟩
    if entered.isLast stepped.input status then Pushed T multiple x later ⟨next, .ok true⟩
    else Underway T multiple x later next := by
  rcases h.ran hT hran with ⟨done, u, v, htracked, hfinished, hbytes, hroom, hadmits⟩
  have hafter := htracked.afterStep hadmits hfinished h.bounds hroom hran.step houtcome
  have htaken : taken.bytes = done ++ (v ++ stepped.output.front) := by
    rw [Recorder.bytes_push hpush, hbytes, List.append_assoc]
  cases hlast : entered.isLast stepped.input status with
  | true =>
      rcases isLast_iff.mp hlast with ⟨rfl, hrest⟩
      refine .ended rfl rfl hafter htaken fun hmultiple => ?_
      rw [hrest (htracked.members.trans hmultiple), List.nil_append]
  | false =>
      refine ⟨hread, fun hended => ?_, ⟨_, _, _, _, hafter, htaken⟩⟩
      cases status with
      | progress => exact absurd (hfinished.symm.trans hended) Bool.false_ne_true
      | streamEnd =>
          rw [← htracked.members]
          refine Decidable.byContradiction fun hsingle => ?_
          rw [isLast_iff.mpr ⟨rfl, fun hmultiple => absurd hmultiple hsingle⟩] at hlast
          cases hlast

/-- One round of a push. -/
theorem drive_follows (hT : Transduces c T) (hsink : Accepting σ) {w : Scene c Cursor (Recorder σ)}
    (h : Underway T multiple x later w) :
    match drive w with
    | .ok (.again _ next) => Underway T multiple x later next
    | .ok (.done _ turn) => Pushed T multiple x later turn
    | .error _ => Oversized T multiple x := by
  rcases w with ⟨d, input, sink⟩
  have hready : d.session ≠ none := by
    rcases h.stands with ⟨s, _, _, _, htracked, _⟩
    rw [htracked.session]
    exact Option.some_ne_none s
  have hcases := attempted Sink.alloc d input sink hready
  unfold drive
  cases hattempt : attempt Sink.alloc ⟨d, input, sink⟩ with
  | error fault => exact oversized_of_fault hT h hready hattempt
  | ok r =>
      rw [hattempt] at hcases
      cases hcases with
      | spent hfinished hexhausted =>
          rcases h.stands with ⟨s, done, u, v, htracked, hbytes⟩
          refine .ended rfl hfinished htracked hbytes fun _ => ?_
          simp only [hexhausted, List.nil_append]
      | @refused cause memory _ _ _ hstart =>
          rcases hT.start d.retire with ⟨s, memory', hok⟩
          rw [hstart] at hok
          cases hok
      | @unserved _ entered _ _ _ hserve =>
          rcases request_of_accepting hsink entered sink with ⟨buffer, served, hrequest, _⟩
          rw [hserve] at hrequest
          cases hrequest
      | failed hran _ houtcome => exact pushed_of_failed hT h hran houtcome
      | @starved _ entered s buffer _ stepped hran _ houtcome _ hnothing =>
          rcases h.ran hT hran with ⟨done, u, v, htracked, hfinished, hbytes, hroom, hadmits⟩
          have hafter := htracked.afterStep_of_nothing hadmits hfinished h.bounds hroom
            hran.step houtcome hnothing
          rcases hadmits.starved houtcome hnothing with ⟨hrest, hall, hrunning⟩
          rw [hrest, List.nil_append] at hafter
          exact .running rfl hfinished hafter hbytes hrunning hall
      | @passed _ entered s buffer _ stepped hran hread houtcome _ hnothing hfurther =>
          rcases h.ran hT hran with ⟨done, u, v, htracked, hfinished, hbytes, hroom, hadmits⟩
          have hafter := htracked.afterStep_of_nothing hadmits hfinished h.bounds hroom
            hran.step houtcome hnothing
          refine ⟨hread, fun _ => ?_, ⟨_, _, _, _, hafter, hbytes⟩⟩
          rw [← htracked.members]
          exact (hasFurtherMember_iff.mp hfurther).1
      | @closed _ entered s buffer _ stepped hran _ houtcome _ hnothing hlast =>
          rcases h.ran hT hran with ⟨done, u, v, htracked, hfinished, hbytes, hroom, hadmits⟩
          have hafter := htracked.afterStep_of_nothing hadmits hfinished h.bounds hroom
            hran.step houtcome hnothing
          refine .ended rfl rfl hafter hbytes fun hmultiple => ?_
          have hrest : stepped.input.rest = [] := by
            rw [← Bool.not_eq_true, hasFurtherMember_iff, htracked.members] at hlast
            exact Decidable.byContradiction fun hmore => hlast ⟨hmultiple, hmore⟩
          rw [hrest, List.nil_append]
      | @filled _ entered s buffer served stepped status hran hread houtcome _ _ _ _ =>
          have hchunk := (Recorder.accepting hsink).push served
            ⟨entered.outputOffset, stepped.output.front⟩
          rcases hchunk with ⟨taken, hpush⟩
          have hfollows := follows_of_chunk hT h hran hread houtcome hpush
          simp only [Except.map, takeProgress_ofChunk, deliverThen_of_ok hpush]
          cases hlast : entered.isLast stepped.input status with
          | true =>
              rw [hlast] at hfollows
              exact hfollows
          | false =>
              rw [hlast] at hfollows
              exact hfollows

variable (later) in
/-- One round after the end of the only stream: whatever the input, nothing is made of it. -/
theorem drive_rests (hrest : RestsAtEnd c) (hsink : Accepting σ) {d : Decoder c} {input : Cursor}
    {sink : Recorder σ} {s : S} {done u v z : List UInt8}
    (htracked : Tracked T multiple x d s done u v z) (hsingle : multiple = false)
    (hfinished : d.finished = true) (hbytes : sink.bytes = done ++ v) (hbounds : input.InBounds) :
    ∃ events turn, drive ⟨d, input, sink⟩ = .ok (.done events turn) ∧
      Pushed T multiple x later turn := by
  have hlater : multiple = true → z = later := by
    rw [hsingle]
    intro hc
    cases hc
  have hrest? : input.rest? = some input.rest := by rw [Cursor.rest?, if_pos hbounds]
  by_cases hmore : input.rest = []
  · have hattempt : attempt Sink.alloc ⟨d, input, sink⟩ =
        .ok (.done [] ⟨⟨d, input, sink⟩, .ok (.ended none)⟩) := by
      simp only [attempt, enter, hfinished, if_true, hrest?, hmore, answer, List.append_nil]
    refine ⟨[], ⟨⟨d, input, sink⟩, .ok true⟩, ?_, .ended rfl hfinished htracked hbytes hlater⟩
    simp only [drive, hattempt, Except.map, takeProgress]
  · -- The session that is over is run once more.
    have hmultiple : d.multipleMembers = false := htracked.members.trans hsingle
    have henter : d.enter input = .ok (.go [] d) := by
      cases hinput : input.rest with
      | nil => exact absurd hinput hmore
      | cons b bs =>
          simp only [enter, hfinished, if_true, hrest?, hinput, hmultiple, Bool.false_eq_true,
            if_false]
    rcases request_of_accepting hsink d sink with ⟨buffer, served, hrequest, hroom, hserved⟩
    have hdecoded := htracked.decoded
    rw [hfinished] at hdecoded
    generalize hstep : c.step s input (.ofBytes buffer) = stepped
    have hrests := hrest hdecoded hbounds hroom
    rw [hstep] at hrests
    rcases hrests with ⟨hinput, houtcome, hwritten, hnothing, htotal⟩
    have hread : stepped.input.InBounds := by rw [hinput]; exact hbounds
    have hlast : d.hasFurtherMember stepped.input = false := by
      rw [hasFurtherMember, hmultiple, Bool.false_and]
    have hrun := runSession_of_ok (d := d) hstep hbounds hread houtcome
    rw [if_pos hwritten, if_pos hnothing] at hrun
    have hattempt := attempt_eq_runSession henter hrequest htracked.session
    rw [hrun] at hattempt
    simp only [concludeEmpty, afterStep_hasFurtherMember, hlast, Bool.false_eq_true, if_false,
      Except.map, answer, List.append_nil] at hattempt
    have hafter := htracked.afterRest hfinished hbounds hroom hstep hinput houtcome hnothing htotal
    refine ⟨[], ⟨⟨d.afterStep input stepped .streamEnd, stepped.input, served⟩, .ok true⟩, ?_,
      .ended rfl rfl hafter (hserved.trans hbytes) hlater⟩
    simp only [drive, hattempt, Except.map, takeProgress]

end Rounds

/-! ## All pushes -/

section Pushes

variable {T : Transduction} {multiple : Bool} {x later : List UInt8} [Sink σ]

/-- Before a push: either the stream goes on in the pieces to come, or the only stream
    is over and its session rests. -/
inductive Awaiting (T : Transduction) (multiple : Bool) (x pieces : List UInt8) (d : Decoder c)
    (sink : Recorder σ) : Prop
  | going {s : S} {done u v : List UInt8} (tracked : Tracked T multiple x d s done u v pieces)
      (bytes : sink.bytes = done ++ v) (single : d.finished = true → multiple = true)
  | resting {s : S} {done u v z : List UInt8} (tracked : Tracked T multiple x d s done u v z)
      (bytes : sink.bytes = done ++ v) (single : multiple = false) (finished : d.finished = true)
      (rests : RestsAtEnd c)

/-- What comes of pushing: an answer, or more bytes than there are offsets. -/
def Came (T : Transduction) (multiple : Bool) (x later : List UInt8) :
    Except Fault (Turn c Cursor (Recorder σ) Bool) → Prop
  | .ok turn => Pushed T multiple x later turn
  | .error _ => Oversized T multiple x

omit [Sink σ] in
theorem came_of_not_oversized {o : Except Fault (Turn c Cursor (Recorder σ) Bool)}
    (h : Came T multiple x later o) (hsize : ¬ Oversized T multiple x) : ∃ turn, o = .ok turn := by
  cases o with
  | error fault => exact absurd h hsize
  | ok turn => exact ⟨turn, rfl⟩

theorem came_of_underway (hT : Transduces c T) (hsink : Accepting σ)
    {w : Scene c Cursor (Recorder σ)}
    {o : Except Fault (Logged Event (Turn c Cursor (Recorder σ) Bool))}
    (hends : Ends (fun _ => drive) w o) (h : Underway T multiple x later w) :
    Came T multiple x later (o.map Logged.result) := by
  induction hends with
  | fault hs =>
      have hfollows := drive_follows hT hsink h
      rw [hs.of_const] at hfollows
      exact hfollows
  | done hs =>
      have hfollows := drive_follows hT hsink h
      rw [hs.of_const] at hfollows
      exact hfollows
  | @again _ _ _ o hs _ ih =>
      have hfollows := drive_follows hT hsink h
      rw [hs.of_const] at hfollows
      have hrest := ih hfollows
      cases o with
      | error fault => exact hrest
      | ok r => exact hrest

/-- One piece. -/
theorem pushPiece_follows (hT : Transduces c T) (hsink : Accepting σ) {d : Decoder c}
    {sink : Recorder σ} {p : Piece} {fuel : Nat}
    (h : Awaiting T multiple x (p.bytes ++ later) d sink)
    (hfuel : pushPiece fuel d sink p ≠ .error .outOfFuel) :
    Came T multiple x later ((pushPiece fuel d sink p).map Logged.result) := by
  have hready : d.session ≠ none := by
    cases h with
    | going htracked _ _ => rw [htracked.session]; exact Option.some_ne_none _
    | resting htracked _ _ _ _ => rw [htracked.session]; exact Option.some_ne_none _
  have hsettles : Settles (fun fuel => pushPiece fuel d sink p) (pushPiece fuel d sink p) :=
    (stable_push _).settles rfl hfuel
  have hends := (settles_push_iff
    (w := ⟨{ d with bufferSize := p.size }, .ofBytes p.bytes, sink⟩) hready).mp hsettles
  have hbounds : (Cursor.ofBytes p.bytes).InBounds := Nat.zero_le _
  cases h with
  | going htracked hbytes hsingle =>
      exact came_of_underway hT hsink hends
        ⟨hbounds, hsingle, ⟨_, _, _, _, htracked.resized p.size, hbytes⟩⟩
  | resting htracked hbytes hsingle hfinished hrests =>
      rcases drive_rests later hrests hsink (htracked.resized p.size) hsingle hfinished hbytes
        hbounds with ⟨events, turn, hdrive, hpushed⟩
      have hround := settles_of_ok hdrive
      have hresult := hsettles.unique ((settles_push_iff hready).mpr (.done hround))
      rw [hresult]
      exact hpushed

/-- All pieces. -/
theorem feed_follows (hT : Transduces c T) (hsink : Accepting σ) {insist : Bool}
    (hinsist : insist = true → multiple = false → RestsAtEnd c) {fuel : Nat} {rest : List Piece} :
    ∀ {d : Decoder c} {sink : Recorder σ} {p : Piece},
      Awaiting T multiple x (p.bytes ++ rest.flatMap Piece.bytes) d sink →
      feed fuel insist d sink p rest ≠ .error .outOfFuel →
      Came T multiple x [] (feed fuel insist d sink p rest) := by
  induction rest with
  | nil =>
      intro d sink p h hfuel
      have hpush : pushPiece fuel d sink p ≠ .error .outOfFuel :=
        fun hc => hfuel (map_eq_outOfFuel_iff.mpr hc)
      exact pushPiece_follows hT hsink h hpush
  | cons q rest ih =>
      intro d sink p h hfuel
      have hpush : pushPiece fuel d sink p ≠ .error .outOfFuel := by
        intro hc
        rw [feed, hc] at hfuel
        exact hfuel rfl
      have hcame := pushPiece_follows hT hsink h hpush
      unfold feed at hfuel ⊢
      cases hresult : pushPiece fuel d sink p with
      | error fault =>
          rw [hresult] at hcame
          exact hcame
      | ok r =>
          rcases r with ⟨events, turn⟩
          rw [hresult] at hcame hfuel
          have hpushed : Pushed T multiple x (q.bytes ++ rest.flatMap Piece.bytes) turn := hcame
          -- What is left to do depends on how the push ended.
          cases hpushed with
          | running result finished tracked bytes _ _ =>
              simp only [result, Bool.false_and, Bool.false_eq_true, if_false] at hfuel ⊢
              refine ih (.going tracked bytes fun hc => ?_) hfuel
              rw [finished] at hc
              cases hc
          | failed result reads bytes ready offset finished consumed =>
              simp only [result]
              exact Pushed.failed result reads bytes ready offset finished consumed
          | ended result finished tracked bytes hrest =>
              have hmembers := tracked.members
              simp only [result, Bool.true_and, hmembers] at hfuel ⊢
              cases multiple with
              | true =>
                  simp only [Bool.not_true, Bool.and_false, Bool.false_eq_true, if_false] at hfuel ⊢
                  rw [hrest rfl] at tracked
                  exact ih (.going tracked bytes fun _ => rfl) hfuel
              | false =>
                  cases insist with
                  | true =>
                      simp only [Bool.not_true, Bool.false_and, Bool.false_eq_true, if_false]
                        at hfuel ⊢
                      exact ih (.resting tracked bytes rfl finished (hinsist rfl rfl)) hfuel
                  | false =>
                      simp only [Bool.not_false, Bool.and_self, if_true]
                      exact Pushed.ended result finished tracked bytes fun hc => by cases hc

/-! ## Two ways to push the same string -/

/-- Pushing a string came to what the string decodes to. -/
inductive Shows (x : List UInt8) : Reading → Turn c Cursor (Recorder σ) Bool → Prop
  | running {output : List UInt8} {turn : Turn c Cursor (Recorder σ) Bool}
      (result : turn.result = .ok false) (bytes : turn.sink.bytes = output)
      (offset : turn.decoder.outputOffset = output.length)
      (pending : turn.decoder.isPending = true ↔ x ≠ []) : Shows x (.running output) turn
  | ended {output : List UInt8} {turn : Turn c Cursor (Recorder σ) Bool}
      (result : turn.result = .ok true) (bytes : turn.sink.bytes = output)
      (offset : turn.decoder.outputOffset = output.length)
      (pending : turn.decoder.isPending = false) : Shows x (.ended output) turn
  | failed {bound : List UInt8} {code : Int} {cause : IoError}
      {turn : Turn c Cursor (Recorder σ) Bool} (result : turn.result = .error (.decode code cause))
      (bytes : turn.sink.bytes <+: bound) (ready : turn.decoder.session ≠ none)
      (offset : turn.decoder.outputOffset = 0) (pending : turn.decoder.isPending = false) :
      Shows x (.failed bound code) turn

omit [Sink σ] in
/-- When no input is left, what was pushed has been decoded. -/
theorem Pushed.shows {turn : Turn c Cursor (Recorder σ) Bool} (h : Pushed T multiple x [] turn) :
    ∃ r, Reads T multiple x r ∧ Shows x r turn := by
  cases h with
  | @running s done u v result finished tracked bytes running all =>
      refine ⟨_, tracked.reads _ (.running (by rwa [List.append_nil])), ?_⟩
      rw [List.append_nil, ← all]
      refine .running result bytes (by rw [tracked.offset, List.length_append]) ?_
      have hbegun := tracked.begun
      rw [List.append_nil] at hbegun
      rw [isPending, finished, Bool.not_false, Bool.and_true, tracked.consumed, ne_eq, hbegun]
  | @ended s done u v z result finished tracked bytes rest =>
      rcases tracked.ended finished with ⟨hstop, hall⟩
      have hreads : Reads T multiple (u ++ z) (.ended v) := by
        rw [hall]
        by_cases hz : z = []
        · rw [hz, List.append_nil]
          exact .ended hstop
        · refine .trailing ?_ hstop hz
          rw [← Bool.not_eq_true]
          exact fun hmultiple => hz (rest hmultiple)
      refine ⟨_, tracked.reads _ hreads, .ended result bytes ?_ ?_⟩
      · rw [tracked.offset, List.length_append]
      · rw [isPending, finished, Bool.not_true, Bool.and_false]
  | failed result reads bytes ready offset finished consumed =>
      refine ⟨_, reads, .failed result bytes ready offset ?_⟩
      rw [isPending, consumed, Bool.false_and]

end Pushes

/-- Two runs came to the same: the same answer and the same bytes, or a failure with the
    same code, of which one run may have handed out more bytes than the other before. -/
inductive SameFeed {σ₁ σ₂ : Type} (t₁ : Turn c Cursor (Recorder σ₁) Bool)
    (t₂ : Turn c Cursor (Recorder σ₂) Bool) : Prop
  | fed {ended : Bool} (result₁ : t₁.result = .ok ended) (result₂ : t₂.result = .ok ended)
      (bytes : t₁.sink.bytes = t₂.sink.bytes)
      (offset₁ : t₁.decoder.outputOffset = t₁.sink.bytes.length)
      (offset₂ : t₂.decoder.outputOffset = t₂.sink.bytes.length)
      (finish : t₁.decoder.finish.result = t₂.decoder.finish.result)
  | failed {code : Int} {cause₁ cause₂ : IoError}
      (result₁ : t₁.result = .error (.decode code cause₁))
      (result₂ : t₂.result = .error (.decode code cause₂))
      (bytes : t₁.sink.bytes <+: t₂.sink.bytes ∨ t₂.sink.bytes <+: t₁.sink.bytes)
      (ready₁ : t₁.decoder.session ≠ none) (ready₂ : t₂.decoder.session ≠ none)
      (offset₁ : t₁.decoder.outputOffset = 0) (offset₂ : t₂.decoder.outputOffset = 0)
      (finish : t₁.decoder.finish.result = t₂.decoder.finish.result)

section Comparison

variable {σ₁ σ₂ : Type} {T : Transduction} {x : List UInt8}
  {t₁ : Turn c Cursor (Recorder σ₁) Bool} {t₂ : Turn c Cursor (Recorder σ₂) Bool}

/-- Decoders at the same offset that are both within a stream or both not finish alike. -/
theorem finish_result_eq {d₁ d₂ : Decoder c} (hpending : d₁.isPending = d₂.isPending)
    (hoffset : d₁.outputOffset = d₂.outputOffset) : d₁.finish.result = d₂.finish.result := by
  cases h : d₁.isPending with
  | true =>
      rw [finish_of_pending h, finish_of_pending (hpending.symm.trans h), fail_result, fail_result,
        hoffset]
  | false => rw [finish_of_not_pending h, finish_of_not_pending (hpending.symm.trans h)]

/-- Two runs that came to what the string decodes to came to the same. -/
theorem Shows.same {r : Reading} (h₁ : Shows x r t₁) (h₂ : Shows x r t₂) : SameFeed t₁ t₂ := by
  cases h₁ with
  | running result₁ bytes₁ offset₁ pending₁ =>
      cases h₂ with
      | running result₂ bytes₂ offset₂ pending₂ =>
          refine .fed result₁ result₂ (bytes₁.trans bytes₂.symm) (by rw [offset₁, bytes₁])
            (by rw [offset₂, bytes₂]) (finish_result_eq ?_ (offset₁.trans offset₂.symm))
          rw [Bool.eq_iff_iff, pending₁, pending₂]
  | ended result₁ bytes₁ offset₁ pending₁ =>
      cases h₂ with
      | ended result₂ bytes₂ offset₂ pending₂ =>
          exact .fed result₁ result₂ (bytes₁.trans bytes₂.symm) (by rw [offset₁, bytes₁])
            (by rw [offset₂, bytes₂])
            (finish_result_eq (pending₁.trans pending₂.symm) (offset₁.trans offset₂.symm))
  | failed result₁ bytes₁ ready₁ offset₁ pending₁ =>
      cases h₂ with
      | failed result₂ bytes₂ ready₂ offset₂ pending₂ =>
          exact .failed result₁ result₂ (List.prefix_or_prefix_of_prefix bytes₁ bytes₂) ready₁
            ready₂ offset₁ offset₂
            (finish_result_eq (pending₁.trans pending₂.symm) (offset₁.trans offset₂.symm))

/-- A decoder that has just been reset awaits the whole string. -/
theorem awaiting_of_reset [Sink σ] (hT : Transduces c T) (d : Decoder c) (sink : σ)
    (x : List UInt8) :
    Awaiting T d.multipleMembers x x d.reset.decoder (Recorder.ofSink sink) := by
  rcases reset_cases d with ⟨s, memory, hstart, hreset⟩ | ⟨cause, memory, hstart, _⟩
  · rw [hreset]
    have htracked : Tracked T d.multipleMembers x (d.startedAt 0 s memory) s [] [] [] x :=
      .ofFresh hT hstart rfl rfl rfl rfl rfl rfl
    exact .going htracked rfl fun hc => by cases hc
  · rcases hT.start d.retire with ⟨s, memory', hok⟩
    rw [hstart] at hok
    cases hok

/-- Cuts and buffer sizes do not matter: whatever pieces a string is cut into, and however
    large the buffers, decoders that have been reset decode it to the same. They do return
    unless the string decodes to more bytes than there are offsets. -/
theorem feed_independent [Sink σ₁] [Sink σ₂] (hT : Transduces c T) (hsink₁ : Accepting σ₁)
    (hsink₂ : Accepting σ₂) {d₁ d₂ : Decoder c} (hmembers : d₁.multipleMembers = d₂.multipleMembers)
    {insist₁ insist₂ : Bool}
    (hinsist : (insist₁ || insist₂) = true → d₁.multipleMembers = false → RestsAtEnd c)
    {p₁ p₂ : Piece} {rest₁ rest₂ : List Piece}
    (hsame : (p₁ :: rest₁).flatMap Piece.bytes = (p₂ :: rest₂).flatMap Piece.bytes)
    {fuel₁ fuel₂ : Nat} {sink₁ : σ₁} {sink₂ : σ₂}
    (hfuel₁ : feedAnew fuel₁ insist₁ d₁ sink₁ p₁ rest₁ ≠ .error .outOfFuel)
    (hfuel₂ : feedAnew fuel₂ insist₂ d₂ sink₂ p₂ rest₂ ≠ .error .outOfFuel) :
    (∀ t₁ t₂, feedAnew fuel₁ insist₁ d₁ sink₁ p₁ rest₁ = .ok t₁ →
      feedAnew fuel₂ insist₂ d₂ sink₂ p₂ rest₂ = .ok t₂ → SameFeed t₁ t₂) ∧
    (¬ Oversized T d₁.multipleMembers ((p₁ :: rest₁).flatMap Piece.bytes) → ∃ t₁ t₂,
      feedAnew fuel₁ insist₁ d₁ sink₁ p₁ rest₁ = .ok t₁ ∧
      feedAnew fuel₂ insist₂ d₂ sink₂ p₂ rest₂ = .ok t₂) := by
  generalize hx : (p₁ :: rest₁).flatMap Piece.bytes = x at hsame ⊢
  have hawait₁ : Awaiting T d₁.multipleMembers x (p₁.bytes ++ rest₁.flatMap Piece.bytes)
      d₁.reset.decoder (Recorder.ofSink sink₁) := by
    rw [← List.flatMap_cons, hx]
    exact awaiting_of_reset hT d₁ sink₁ x
  have hawait₂ : Awaiting T d₁.multipleMembers x (p₂.bytes ++ rest₂.flatMap Piece.bytes)
      d₂.reset.decoder (Recorder.ofSink sink₂) := by
    rw [← List.flatMap_cons, ← hsame, hmembers]
    exact awaiting_of_reset hT d₂ sink₂ x
  have hcame₁ := feed_follows hT hsink₁ (fun h => hinsist (by rw [h, Bool.true_or])) hawait₁ hfuel₁
  have hcame₂ := feed_follows hT hsink₂ (fun h => hinsist (by rw [h, Bool.or_true])) hawait₂ hfuel₂
  constructor
  · intro t₁ t₂ ht₁ ht₂
    rw [show feed _ _ _ _ _ _ = _ from ht₁] at hcame₁
    rw [show feed _ _ _ _ _ _ = _ from ht₂] at hcame₂
    rcases Pushed.shows hcame₁ with ⟨r₁, hreads₁, hshows₁⟩
    rcases Pushed.shows hcame₂ with ⟨r₂, hreads₂, hshows₂⟩
    rw [reads_unique hreads₂ hreads₁] at hshows₂
    exact hshows₁.same hshows₂
  · intro hsize
    rcases came_of_not_oversized hcame₁ hsize with ⟨t₁, ht₁⟩
    rcases came_of_not_oversized hcame₂ hsize with ⟨t₂, ht₂⟩
    exact ⟨t₁, t₂, ht₁, ht₂⟩

/-- Two members and the beginning of a third, copied in small pieces and in one. -/
theorem feed_independent_copier : ∃ t₁ t₂,
    feedAnew 9 true (.copying true) (#[] : Array Chunk) ⟨⟨1, by decide⟩, [5]⟩
      [⟨⟨2, by decide⟩, [6, 0]⟩, ⟨⟨1, by decide⟩, []⟩, ⟨⟨3, by decide⟩, [0, 7]⟩] = .ok t₁ ∧
    feedAnew 9 false (.copying true) (#[] : Array Chunk) ⟨⟨4, by decide⟩, [5, 6, 0, 0, 7]⟩ [] =
      .ok t₂ ∧
    SameFeed t₁ t₂ := by
  have hsize : ¬ Oversized copying true [5, 6, 0, 0, 7] := by
    rintro ⟨out, hyields, hlimit⟩
    have hlength := copying_yields hyields
    unfold offsetLimit at hlimit
    simp only [List.length_cons, List.length_nil] at hlength
    omega
  have hreturns₁ : feedAnew 9 true (.copying true) (#[] : Array Chunk) ⟨⟨1, by decide⟩, [5]⟩
      [⟨⟨2, by decide⟩, [6, 0]⟩, ⟨⟨1, by decide⟩, []⟩, ⟨⟨3, by decide⟩, [0, 7]⟩] ≠
        .error .outOfFuel := fun hc => by cases hc
  have hreturns₂ : feedAnew 9 false (.copying true) (#[] : Array Chunk)
      ⟨⟨4, by decide⟩, [5, 6, 0, 0, 7]⟩ [] ≠ .error .outOfFuel := fun hc => by cases hc
  have h := feed_independent copier_transduces accepting_array accepting_array (by rfl)
    (fun _ _ => copier_rests) (by rfl) hreturns₁ hreturns₂
  rcases h.2 hsize with ⟨t₁, t₂, h₁, h₂⟩
  exact ⟨t₁, t₂, h₁, h₂, h.1 t₁ t₂ h₁ h₂⟩

end Comparison

end Decompression
