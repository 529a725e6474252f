import Decompression.Proofs.Bounds
import Decompression.Proofs.Chunking
import Decompression.Proofs.Failure

/-!
# Streams That Are Completed

A stream that is pushed in pieces is completed by one of them: the pushes before it have to
wait for more, and it reports the end of the stream, wherever in it the stream ends. What
comes after the stream may begin in the same piece or in a later one. In the same piece it is
left unread. In a later one it reaches a session that is over, because a decoder of a single
member does not look whether it has finished, and what happens then is up to the codec.

What is asked of the codec up to the end of the stream is `Codec.Carries`. It is a statement
about one stream, and about the sessions that are met if it is cut in any way. A codec of
which it holds may do anything with other bytes.

## Main definitions

* `OnStream`: Bytes of a stream, or all of it and more.
* `Codec.Amid`: The sessions that are met as a stream is read.
* `Codec.Carries`: The sessions decode a stream, however it is cut.
* `Decoder.Amid`, `Decoder.Complete`: A decoder within a stream, and one after its end.
* `Cut`: The pieces up to the one that completes a stream.
* `Ignored`: What comes after the stream has no effect.
* `Codec.Ignores`, `Codec.Refuses`: What decoders of a single member make of it.

## Theorems

* `drive_advances`, `push_arrives`: One round, and one push, within a stream.
* `exists_cut`: One of the pieces completes the stream.
* `trailing_ignored`: A codec that rests at the end of a stream ignores what comes after it.
* `trailing_refused`: One that refuses to be run after it fails at the first further bytes.
-/

namespace Decompression

open Decoder Loop

variable {S M σ : Type} {c : Codec S M}

/-! ## Sessions within a stream -/

/-- The bytes are some of the stream, or all of it and more. -/
def OnStream (x p : List UInt8) : Prop :=
  p <+: x ∨ x <+: p

-- Whatever lies before bytes that complete a stream is on it.
theorem onStream_of_prefix {x p q : List UInt8} (hq : x <+: q) (hp : p <+: q) : OnStream x p :=
  List.prefix_or_prefix_of_prefix hp hq

/-- A session that has read `u` and written `v` and is not over. All that it was offered was on
    the stream. -/
inductive Codec.Amid (c : Codec S M) (x : List UInt8) : S → List UInt8 → List UInt8 → Prop
  | fresh {memory memory' : M} {s : S} (start : c.start memory = (.ok s, memory')) :
      Amid c x s [] []
  | step {s : S} {u v : List UInt8} {input : Cursor} {buffer : List UInt8} {stepped : Stepped S}
      (before : Amid c x s u v) (bounds : input.InBounds) (room : buffer ≠ [])
      (offered : OnStream x (u ++ input.rest)) (step : c.step s input (.ofBytes buffer) = stepped)
      (outcome : stepped.outcome = .ok .progress) :
      Amid c x stepped.session (u ++ input.between stepped.input) (v ++ stepped.output.front)

theorem Codec.Amid.decoded {x : List UInt8} {s : S} {u v : List UInt8} (h : c.Amid x s u v) :
    Decoded c s u v false := by
  induction h with
  | fresh hstart => exact .fresh hstart
  | step _ hbounds hroom _ hstep houtcome ih => exact ih.step hbounds hroom hstep houtcome

/-- A step from a session that has read `u` and written `v` gets on with a stream `x` that stands
    for `out`. -/
structure Codec.Proceeds (c : Codec S M) (x out : List UInt8) (s : S) (u v : List UInt8)
    (input : Cursor) (stepped : Stepped S) : Prop where
  -- Both cursors stay in their buffers, and the output is counted.
  bytes : stepped.input.bytes = input.bytes
  forward : input.index ≤ stepped.input.index
  read : stepped.input.InBounds
  written : stepped.output.InBounds
  count : c.totalOut stepped.session = c.totalOut s + stepped.output.front.length
  succeeds : ∃ status, stepped.outcome = .ok status
  faithful : v ++ stepped.output.front <+: out
  -- Before the end nothing beyond it is read, and nothing is waited for but the rest of the stream.
  within : stepped.outcome = .ok .progress → u ++ input.between stepped.input <+: x
  starved : stepped.outcome = .ok .progress → stepped.output.front = [] →
    stepped.input.rest = [] ∧ u ++ input.between stepped.input ≠ x
  ended : stepped.outcome = .ok .streamEnd →
    u ++ input.between stepped.input = x ∧ v ++ stepped.output.front = out

/-- The codec can always start a session, and its sessions decode the stream `x` to `out`, however
    it is cut and whatever comes after it. -/
structure Codec.Carries (c : Codec S M) (x out : List UInt8) : Prop where
  start : ∀ memory, ∃ s memory', c.start memory = (.ok s, memory')
  fresh : ∀ {memory memory' s}, c.start memory = (.ok s, memory') → c.totalOut s = 0
  step : ∀ {s u v}, c.Amid x s u v → ∀ {input : Cursor} {buffer : List UInt8}, input.InBounds →
    buffer ≠ [] → OnStream x (u ++ input.rest) →
    c.Proceeds x out s u v input (c.step s input (.ofBytes buffer))

/-- A session that is over refuses to be run again. -/
def RefusesAtEnd (c : Codec S M) (error : StepError) : Prop :=
  ∀ {s u v}, Decoded c s u v true → ∀ {input : Cursor} {buffer : List UInt8},
    input.InBounds → buffer ≠ [] →
    (c.step s input (.ofBytes buffer)).input = input ∧
    (c.step s input (.ofBytes buffer)).outcome = .error error

/-! ## Decoders within a stream -/

/-- The decoder is within a stream, the only one it decodes: its session has read `u` and written
    `v`. -/
structure Decoder.Amid (d : Decoder c) (x u v : List UInt8) : Prop where
  session : ∃ s, d.session = some s ∧ c.Amid x s u v ∧ c.totalOut s = v.length
  running : d.finished = false
  single : d.multipleMembers = false
  base : d.memberBase = 0
  offset : d.outputOffset = v.length

/-- The decoder is past the end of the only stream it decodes. -/
structure Decoder.Complete (d : Decoder c) (out : List UInt8) : Prop where
  session : ∃ s u, d.session = some s ∧ Decoded c s u out true
  finished : d.finished = true
  single : d.multipleMembers = false
  offset : d.outputOffset = out.length

section Rounds

variable {x out p earlier : List UInt8}

/-- Between two rounds of a push: `p` is what was pushed so far, this piece included, and `earlier`
    is what came of the pushes before this one. -/
structure Advancing (x p earlier : List UInt8) (w : Scene c Cursor (Recorder σ)) : Prop where
  bounds : w.input.InBounds
  amid : ∃ u, w.decoder.Amid x u (earlier ++ w.sink.bytes) ∧ u ++ w.input.rest = p

/-- What a push within a stream leaves behind. -/
inductive Arrives (x out p earlier : List UInt8) (turn : Turn c Cursor (Recorder σ) Bool) : Prop
  -- More of the stream is needed.
  | waits (result : turn.result = .ok false)
      (amid : turn.decoder.Amid x p (earlier ++ turn.sink.bytes)) (missing : ¬ x <+: p)
  -- The stream is complete.
  | completes (result : turn.result = .ok true) (complete : turn.decoder.Complete out)
      (bytes : earlier ++ turn.sink.bytes = out) (whole : x <+: p)

-- A step that does not end the stream.
theorem Decoder.Amid.progress {d : Decoder c} {u v : List UInt8} (hd : d.Amid x u v)
    {input : Cursor} {buffer : List UInt8} {s : S} {stepped : Stepped S}
    (hs : c.Amid x s u v) (htotal : c.totalOut s = v.length) (hbounds : input.InBounds)
    (hroom : buffer ≠ []) (hon : OnStream x (u ++ input.rest))
    (hstep : c.step s input (.ofBytes buffer) = stepped)
    (houtcome : stepped.outcome = .ok .progress)
    (hcount : c.totalOut stepped.session = c.totalOut s + stepped.output.front.length) :
    ({ d.afterStep input stepped .progress with
      outputOffset := d.outputOffset + stepped.output.front.length } : Decoder c).Amid x
      (u ++ input.between stepped.input) (v ++ stepped.output.front) where
  session := by
    refine ⟨stepped.session, rfl, hs.step hbounds hroom hon hstep houtcome, ?_⟩
    rw [hcount, htotal, List.length_append]
  running := hd.running
  single := hd.single
  base := hd.base
  offset := by rw [List.length_append, ← hd.offset]

-- A step that ends it.
theorem Decoder.Amid.streamEnd {d : Decoder c} {u v : List UInt8} (hd : d.Amid x u v)
    {input : Cursor} {buffer : List UInt8} {s : S} {stepped : Stepped S}
    (hs : c.Amid x s u v) (hbounds : input.InBounds) (hroom : buffer ≠ [])
    (hstep : c.step s input (.ofBytes buffer) = stepped)
    (houtcome : stepped.outcome = .ok .streamEnd) (hall : v ++ stepped.output.front = out) :
    ({ d.afterStep input stepped .streamEnd with
      outputOffset := d.outputOffset + stepped.output.front.length } : Decoder c).Complete out where
  session := ⟨stepped.session, u ++ input.between stepped.input, rfl,
    hall ▸ hs.decoded.step hbounds hroom hstep houtcome⟩
  finished := rfl
  single := hd.single
  offset := by rw [← hall, List.length_append, ← hd.offset]

variable [Sink σ]

/-- One round of a push within a stream. Unless it is the last one it hands something out. -/
theorem drive_advances (hc : c.Carries x out) (hsink : Accepting σ)
    (hsize : out.length < offsetLimit) (hon : OnStream x p)
    {w : Scene c Cursor (Recorder σ)} (hw : Advancing x p earlier w) :
    ∃ r, drive w = .ok r ∧
      match r with
      | .again _ next => Advancing x p earlier next ∧
          w.sink.bytes.length < next.sink.bytes.length ∧ earlier ++ next.sink.bytes <+: out
      | .done _ turn => Arrives x out p earlier turn := by
  rcases w with ⟨d, input, sink⟩
  rcases hw with ⟨hbounds, u, hd, hp⟩
  rcases hd.session with ⟨s, hsession, hs, htotal⟩
  dsimp only at hbounds hp hd
  generalize hv : earlier ++ sink.bytes = v at hd hs htotal
  subst hp
  rcases (Recorder.accepting hsink).alloc sink d.outputOffset d.bufferSize.toNat with
    ⟨buffer, served, hserve, hlength⟩
  generalize hstep : c.step s input (.ofBytes buffer) = stepped
  have hstay : Entered d input [] d := .stay fun hfinished => by
    rw [hd.running] at hfinished
    cases hfinished
  have hran : Ran Sink.alloc d input sink [] d s buffer served stepped :=
    ⟨hstay, hsession, hserve, hlength, hbounds, hstep⟩
  have hproceeds := hc.step hs hbounds hran.room hon
  rw [hstep] at hproceeds
  have hserved : served.bytes = sink.bytes := Recorder.bytes_alloc hserve
  have hrest := Cursor.rest_eq_between_append hproceeds.bytes hproceeds.forward
  have hfurther : d.hasFurtherMember stepped.input = false := by
    rw [hasFurtherMember, hd.single, Bool.false_and]
  rcases hproceeds.succeeds with ⟨status, houtcome⟩
  have hwent : Went Sink.alloc d input sink [] d s buffer served stepped status :=
    ⟨hran, hproceeds.read, houtcome, hproceeds.written⟩
  by_cases hnothing : stepped.output.front = []
  · cases status with
    | progress =>
        have hgoes : Goes ⟨d, input, sink⟩ (.done [] ⟨⟨d.afterStep input stepped .progress,
            stepped.input, served⟩, .ok false⟩) := .starved hwent hnothing
        have hamid := hd.progress hs htotal hbounds hran.room hon hstep houtcome hproceeds.count
        rw [hnothing, List.append_nil] at hamid
        rcases hproceeds.starved houtcome hnothing with ⟨hread, hmissing⟩
        rw [hread, List.append_nil] at hrest
        refine ⟨_, drive_of_goes hgoes hbounds, .waits rfl ?_ fun hwhole => hmissing ?_⟩
        · rw [hserved, hv, hrest]
          exact hamid
        · rw [hrest] at hwhole
          exact (hproceeds.within houtcome).eq_of_length_le hwhole.length_le
    | streamEnd =>
        have hgoes : Goes ⟨d, input, sink⟩ (.done [] ⟨⟨d.afterStep input stepped .streamEnd,
            stepped.input, served⟩, .ok true⟩) := .closed hwent hnothing hfurther
        rcases hproceeds.ended houtcome with ⟨hwhole, hall⟩
        have hcomplete := hd.streamEnd hs hbounds hran.room hstep houtcome hall
        rw [hnothing, List.append_nil] at hall
        rw [hnothing] at hcomplete
        refine ⟨_, drive_of_goes hgoes hbounds, .completes rfl hcomplete ?_ ?_⟩
        · rw [hserved, hv, hall]
        · rw [hrest, ← List.append_assoc, hwhole]
          exact List.prefix_append _ _
  · rcases (Recorder.accepting hsink).push served ⟨d.outputOffset, stepped.output.front⟩ with
      ⟨taken, hpush⟩
    have htaken : earlier ++ taken.bytes = v ++ stepped.output.front := by
      rw [Recorder.bytes_push hpush, hserved, ← hv, List.append_assoc]
    have hcount : d.outputOffset + stepped.output.front.length =
        d.memberBase + c.totalOut stepped.session := by
      rw [hproceeds.count, htotal, hd.base, hd.offset, Nat.zero_add]
    have hrange : d.outputOffset + stepped.output.front.length < offsetLimit := by
      have hlength := hproceeds.faithful.length_le
      rw [List.length_append, ← hd.offset] at hlength
      exact Nat.lt_of_le_of_lt hlength hsize
    cases status with
    | progress =>
        have hgoes := Goes.filled (w := ⟨d, input, sink⟩) hwent hnothing hcount hrange rfl hpush
        have hamid := hd.progress hs htotal hbounds hran.room hon hstep houtcome hproceeds.count
        rw [← htaken] at hamid
        refine ⟨_, drive_of_goes hgoes hbounds, ⟨hproceeds.read, _, hamid, ?_⟩, ?_, ?_⟩
        · rw [hrest, List.append_assoc]
        · rw [Recorder.bytes_push hpush, hserved, List.length_append]
          exact Nat.lt_add_of_pos_right (List.length_pos_iff.mpr hnothing)
        · rw [htaken]
          exact hproceeds.faithful
    | streamEnd =>
        have hlast : d.isLast stepped.input .streamEnd = true := by rw [isLast, hfurther]; rfl
        have hgoes := Goes.ended (w := ⟨d, input, sink⟩) hwent hnothing hcount hrange hlast hpush
        rcases hproceeds.ended houtcome with ⟨hwhole, hall⟩
        refine ⟨_, drive_of_goes hgoes hbounds, .completes rfl
          (hd.streamEnd hs hbounds hran.room hstep houtcome hall) (htaken.trans hall) ?_⟩
        rw [hrest, ← List.append_assoc, hwhole]
        exact List.prefix_append _ _

/-- A push within a stream. -/
theorem push_arrives (hc : c.Carries x out) (hsink : Accepting σ) (hsize : out.length < offsetLimit)
    (hon : OnStream x p) {w : Scene c Cursor (Recorder σ)} (hw : Advancing x p earlier w) :
    ∃ r, Settles (fun fuel => pushCursor fuel w) (.ok r) ∧ Arrives x out p earlier r.result := by
  have hends : ∃ r, Ends (fun _ => drive) w (.ok r) ∧ Arrives x out p earlier r.result := by
    -- Every round but the last hands something out, and there is only so much of it.
    induction hleft : out.length - (earlier ++ w.sink.bytes).length using Nat.strongRecOn
      generalizing w with
    | _ left ih =>
        rcases drive_advances hc hsink hsize hon hw with
          ⟨⟨events, next⟩ | ⟨events, turn⟩, hdrive, hr⟩
        · rcases hr with ⟨hnext, hmore, hfaithful⟩
          have hlength := hfaithful.length_le
          rw [List.length_append] at hlength hleft
          rcases ih _ (by rw [List.length_append]; omega) hnext rfl with ⟨r, hends, harrives⟩
          exact ⟨_, .again (settles_of_ok hdrive) hends, harrives⟩
        · exact ⟨_, .done (settles_of_ok hdrive), hr⟩
  have hready : w.decoder.session ≠ none := by
    rcases hw.amid with ⟨u, hd, _⟩
    rcases hd.session with ⟨s, hs, _⟩
    rw [hs]
    exact Option.some_ne_none s
  rcases hends with ⟨r, hends, harrives⟩
  exact ⟨r, (settles_push_iff hready).mpr hends, harrives⟩

/-! ## After the end of a stream -/

/-- A push after the end of a stream, if it is of no bytes or if sessions that are over rest. -/
theorem push_rests {d : Decoder c} (hd : d.Complete out) {bytes : List UInt8}
    (hrest : bytes ≠ [] → RestsAtEnd c) (hsink : Accepting σ) (sink : Recorder σ) :
    ∃ r, Settles (fun fuel => d.push fuel bytes sink) (.ok r) ∧ r.result.result = .ok true ∧
      r.result.decoder.Complete out ∧ r.result.sink.handed = sink.handed := by
  rcases hd.session with ⟨s, u, hsession, hdecoded⟩
  have hready : d.session ≠ none := by
    rw [hsession]
    exact Option.some_ne_none s
  have hbounds : (Cursor.ofBytes bytes).InBounds := Nat.zero_le _
  have hpush : ∀ {events turn}, Goes ⟨d, .ofBytes bytes, sink⟩ (.done events turn) →
      Settles (fun fuel => d.push fuel bytes sink) (.ok ⟨events, turn⟩) := fun hgoes =>
    (settles_push_iff hready).mpr (.done (settles_drive hgoes hbounds))
  by_cases hmore : bytes = []
  · have hgoes : Goes ⟨d, .ofBytes bytes, sink⟩ (.done [] ⟨⟨d, .ofBytes bytes, sink⟩, .ok true⟩) :=
      .spent hd.finished hmore
    exact ⟨_, hpush hgoes, rfl, hd, rfl⟩
  · -- The session that is over is run once more.
    rcases (Recorder.accepting hsink).alloc sink d.outputOffset d.bufferSize.toNat with
      ⟨buffer, served, hserve, hlength⟩
    generalize hstep : c.step s (.ofBytes bytes) (.ofBytes buffer) = stepped
    have hran : Ran Sink.alloc d (.ofBytes bytes) sink [] d s buffer served stepped :=
      ⟨.stay fun _ => ⟨hmore, hd.single⟩, hsession, hserve, hlength, hbounds, hstep⟩
    rcases hrest hmore hdecoded hbounds hran.room with ⟨hinput, houtcome, hwritten, hnothing, _⟩
    rw [hstep] at hinput houtcome hwritten hnothing
    have hfurther : d.hasFurtherMember stepped.input = false := by
      rw [hasFurtherMember, hd.single, Bool.false_and]
    have hgoes : Goes ⟨d, .ofBytes bytes, sink⟩ (.done [] ⟨⟨d.afterStep (.ofBytes bytes) stepped
        .streamEnd, stepped.input, served⟩, .ok true⟩) :=
      .closed ⟨hran, by rw [hinput]; exact hbounds, houtcome, hwritten⟩ hnothing hfurther
    have hagain := hdecoded.step hbounds hran.room hstep houtcome
    rw [hnothing, List.append_nil] at hagain
    exact ⟨_, hpush hgoes, rfl, ⟨⟨_, _, rfl, hagain⟩, rfl, hd.single, hd.offset⟩,
      Recorder.handed_alloc hserve⟩

/-- A push of further bytes after the end of a stream, if sessions that are over refuse to be
    run. -/
theorem push_refused {error : StepError} (hrefuse : RefusesAtEnd c error) {d : Decoder c}
    (hd : d.Complete out) {bytes : List UInt8} (hmore : bytes ≠ []) (hsink : Accepting σ)
    (sink : Recorder σ) :
    ∃ r, Settles (fun fuel => d.push fuel bytes sink) (.ok r) ∧
      r.result.result = .error (.ofStep error) ∧ r.result.sink.handed = sink.handed ∧
      ∃ memory, r.result.decoder = created c memory d.bufferSize false := by
  rcases hd.session with ⟨s, u, hsession, hdecoded⟩
  have hready : d.session ≠ none := by
    rw [hsession]
    exact Option.some_ne_none s
  have hbounds : (Cursor.ofBytes bytes).InBounds := Nat.zero_le _
  rcases (Recorder.accepting hsink).alloc sink d.outputOffset d.bufferSize.toNat with
    ⟨buffer, served, hserve, hlength⟩
  generalize hstep : c.step s (.ofBytes bytes) (.ofBytes buffer) = stepped
  have hran : Ran Sink.alloc d (.ofBytes bytes) sink [] d s buffer served stepped :=
    ⟨.stay fun _ => ⟨hmore, hd.single⟩, hsession, hserve, hlength, hbounds, hstep⟩
  rcases hrefuse hdecoded hbounds hran.room with ⟨hinput, houtcome⟩
  rw [hstep] at hinput houtcome
  have hattempt := attempt_of_failed hran (by rw [hinput]; exact hbounds) houtcome
  have hdrive : drive ⟨d, .ofBytes bytes, sink⟩ = .ok (.done (.failed (.ofStep error) ::
        (d.returnSession stepped.session (.ofBytes bytes) stepped.input).reset.events)
      ⟨⟨(d.returnSession stepped.session (.ofBytes bytes) stepped.input).reset.decoder,
        stepped.input, served⟩, .error (.ofStep error)⟩) := by
    rw [drive, hattempt]
    rfl
  refine ⟨_, (settles_push_iff hready).mpr (.done (settles_of_ok hdrive)), rfl,
    Recorder.handed_alloc hserve,
    (d.returnSession stepped.session (.ofBytes bytes) stepped.input).retire, ?_⟩
  rw [reset_eq_created]
  exact congrArg (created c _ d.bufferSize) hd.single

end Rounds

/-! ## Pieces -/

section Pieces

variable {x out : List UInt8}

/-- Pushes of some pieces, each with a sink of its own. -/
def pushes (sink : σ) (pieces : List (List UInt8)) : List (Call σ) :=
  pieces.map fun bytes => .push bytes sink

theorem pushes_append (sink : σ) (before after : List (List UInt8)) :
    pushes sink (before ++ after) = pushes sink before ++ pushes sink after :=
  List.map_append

/-- The data of the chunks that a call handed out. -/
def Report.bytes (r : Report c σ) : List UInt8 :=
  r.chunks.flatMap Chunk.data

/-- The push has to wait for more of its stream. -/
structure Report.Waits (r : Report c σ) : Prop where
  answer : r.answer = .ok (.ended false)
  running : r.after.finished = false

/-- The push leaves a stream complete that stands for `out`. -/
structure Report.Completes (r : Report c σ) (out : List UInt8) : Prop where
  answer : r.answer = .ok (.ended true)
  finished : r.after.finished = true
  offset : r.after.outputOffset = out.length
  finish : r.after.finish = ⟨r.after, [], .ok ()⟩

/-- The piece `p`, which comes after the pieces `before`, completes the stream. -/
structure Cut (x : List UInt8) (before : List (List UInt8)) (p : List UInt8) : Prop where
  early : before = [] ∨ ¬ x <+: before.flatten
  whole : x <+: (before ++ [p]).flatten

theorem exists_cut_after (earlier : List (List UInt8)) {pieces : List (List UInt8)}
    (hpieces : pieces ≠ []) (hearly : earlier = [] ∨ ¬ x <+: earlier.flatten)
    (hwhole : x <+: (earlier ++ pieces).flatten) :
    ∃ before p after, earlier ++ pieces = before ++ p :: after ∧ Cut x before p := by
  induction pieces generalizing earlier with
  | nil => exact absurd rfl hpieces
  | cons p rest ih =>
      by_cases hp : x <+: (earlier ++ [p]).flatten
      · exact ⟨earlier, p, rest, rfl, hearly, hp⟩
      · rw [← List.singleton_append, ← List.append_assoc] at hwhole ⊢
        have hrest : rest ≠ [] := by
          rintro rfl
          rw [List.append_nil] at hwhole
          exact hp hwhole
        exact ih (earlier ++ [p]) hrest (Or.inr hp) hwhole

/-- One of the pieces completes the stream. -/
theorem exists_cut {pieces : List (List UInt8)} (hpieces : pieces ≠ []) {t : List UInt8}
    (h : pieces.flatten = x ++ t) :
    ∃ before p after, pieces = before ++ p :: after ∧ Cut x before p := by
  refine exists_cut_after [] hpieces (Or.inl rfl) ?_
  rw [List.nil_append, h]
  exact List.prefix_append x t

theorem Decoder.Complete.finish {d : Decoder c} (h : d.Complete out) : d.finish = ⟨d, [], .ok ()⟩ :=
  finish_of_not_pending (by rw [isPending, h.finished, Bool.not_true, Bool.and_false])

/-- What it means that nothing is made of what comes after a stream: the pushes `waiting` have to
    wait, the push `last` completes the stream, and the pushes `later` have no effect. -/
structure Ignored (out : List UInt8) (waiting : List (Report c σ)) (last : Report c σ)
    (later : List (Report c σ)) : Prop where
  waits : ∀ r ∈ waiting, r.Waits
  completes : last.Completes out
  bytes : (waiting ++ [last]).flatMap Report.bytes = out
  stays : ∀ r ∈ later, r.Completes out ∧ r.chunks = []

variable [Sink σ]

/-- A decoder of a single member makes nothing of what comes after the stream that the piece `p`
    completes. -/
def Codec.Ignores (c : Codec S M) (out : List UInt8) (memory : M) (size : BufferSize) (sink : σ)
    (before : List (List UInt8)) (p : List UInt8) (after : List (List UInt8)) : Prop :=
  ∃ waiting last later, Settles (fun fuel => reports fuel (created c memory size false)
      (pushes sink (before ++ p :: after))) (.ok (waiting ++ last :: later)) ∧
    waiting.length = before.length ∧ later.length = after.length ∧
    Ignored out waiting last later

/-- A decoder of a single member fails, and starts over, at the piece `q`, which comes after the
    pieces `empty` of no bytes and after the piece `p`, which completes the stream. -/
def Codec.Refuses (c : Codec S M) (out : List UInt8) (error : StepError) (memory : M)
    (size : BufferSize) (sink : σ) (before : List (List UInt8)) (p : List UInt8)
    (empty : List (List UInt8)) (q : List UInt8) : Prop :=
  ∃ waiting last later refused, Settles (fun fuel => reports fuel (created c memory size false)
      (pushes sink (before ++ p :: empty ++ [q]))) (.ok (waiting ++ last :: later ++ [refused])) ∧
    waiting.length = before.length ∧ later.length = empty.length ∧
    Ignored out waiting last later ∧
    refused.answer = .error (.ofStep error) ∧ refused.chunks = [] ∧
    ∃ memory', refused.after = created c memory' refused.before.bufferSize false

theorem settles_reports_cons {d : Decoder c} {call : Call σ} {rest : List (Call σ)}
    {r : Report c σ} {rs : List (Report c σ)}
    (hcall : Settles (fun fuel => call.report fuel d) (.ok r))
    (hrest : Settles (fun fuel => reports fuel r.after rest) (.ok rs)) :
    Settles (fun fuel => reports fuel d (call :: rest)) (.ok (r :: rs)) := by
  rcases hcall with ⟨_, n, hn⟩
  rcases hrest with ⟨_, m, hm⟩
  refine ⟨ok_ne_outOfFuel _, max n m, fun fuel hle => ?_⟩
  dsimp only at hn hm ⊢
  rw [reports, hn fuel (by omega)]
  simp only [Except.bind, hm fuel (by omega), Except.map]

/-- The report of a push. -/
def Report.ofPush (d : Decoder c) (r : Logged Event (Turn c Cursor (Recorder σ) Bool)) :
    Report c σ :=
  ⟨.ofTurn d r, r.result.result.map .ended, .cursor r.result.input, some r.result.sink⟩

theorem settles_report_push {d : Decoder c} {bytes : List UInt8} {sink : σ}
    {r : Logged Event (Turn c Cursor (Recorder σ) Bool)}
    (h : Settles (fun fuel => d.push fuel bytes (Recorder.ofSink sink)) (.ok r)) :
    Settles (fun fuel => (Call.push bytes sink).report fuel d) (.ok (.ofPush d r)) :=
  (settles_map_iff (stable_push _)).mpr ⟨_, h, rfl⟩

theorem completes_ofPush {d : Decoder c} {r : Logged Event (Turn c Cursor (Recorder σ) Bool)}
    (hresult : r.result.result = .ok true) (hcomplete : r.result.decoder.Complete out) :
    (Report.ofPush d r).Completes out where
  answer := congrArg (Except.map Returned.ended) hresult
  finished := hcomplete.finished
  offset := hcomplete.offset
  finish := hcomplete.finish

-- The pushes up to the end of the stream, in front of other calls.
theorem reports_complete (hc : c.Carries x out) (hsink : Accepting σ)
    (hsize : out.length < offsetLimit) (sink : σ) {before : List (List UInt8)} {p : List UInt8}
    {d : Decoder c} {u v : List UInt8}
    (hd : d.Amid x u v) (hearly : before = [] ∨ ¬ x <+: u ++ before.flatten)
    (hwhole : x <+: u ++ (before ++ [p]).flatten) :
    ∃ waiting last, (∀ calls rs, Settles (fun fuel => reports fuel last.after calls) (.ok rs) →
        Settles (fun fuel => reports fuel d (pushes sink (before ++ [p]) ++ calls))
          (.ok (waiting ++ last :: rs))) ∧
      waiting.length = before.length ∧ (∀ r ∈ waiting, r.Waits) ∧ last.Completes out ∧
      v ++ (waiting ++ [last]).flatMap Report.bytes = out ∧ last.after.Complete out := by
  have hpush : ∀ {d : Decoder c} {u v bytes : List UInt8}, d.Amid x u v → OnStream x (u ++ bytes) →
      ∃ r, Settles (fun fuel => d.push fuel bytes (Recorder.ofSink sink)) (.ok r) ∧
        Arrives x out (u ++ bytes) v r.result := by
    intro d u v bytes hd hon
    refine push_arrives hc hsink hsize hon (w := ⟨d, .ofBytes bytes, .ofSink sink⟩)
      ⟨Nat.zero_le _, u, ?_, rfl⟩
    rwa [show (Recorder.ofSink sink).bytes = [] from rfl, List.append_nil]
  induction before generalizing d u v with
  | nil =>
      rw [List.nil_append, List.flatten_singleton] at hwhole
      rcases hpush hd (Or.inr hwhole) with ⟨r, hr, harrives⟩
      cases harrives with
      | waits _ _ hmissing => exact absurd hwhole hmissing
      | completes hresult hcomplete hbytes _ =>
          refine ⟨[], .ofPush d r, fun calls rs hrs =>
            settles_reports_cons (settles_report_push hr) hrs, rfl, List.forall_mem_nil _,
            completes_ofPush hresult hcomplete, ?_, hcomplete⟩
          rw [List.nil_append, List.flatMap_singleton]
          exact hbytes
  | cons b before ih =>
      have hon : OnStream x (u ++ b) := by
        refine onStream_of_prefix hwhole ((List.prefix_append_right_inj u).mpr ?_)
        exact List.prefix_append b (before ++ [p]).flatten
      have hmissing : ¬ x <+: u ++ b ++ before.flatten := by
        rcases hearly with hnone | hmissing
        · cases hnone
        · rwa [List.append_assoc]
      rcases hpush hd hon with ⟨r, hr, harrives⟩
      cases harrives with
      | waits hresult hamid _ =>
          have hrest : x <+: u ++ b ++ (before ++ [p]).flatten := by rwa [List.append_assoc]
          rcases ih hamid (Or.inr hmissing) hrest with
            ⟨waiting, last, hcalls, hlength, hwaits, hcompletes, hbytes, hcomplete⟩
          refine ⟨.ofPush d r :: waiting, last, fun calls rs hrs =>
            settles_reports_cons (settles_report_push hr) (hcalls calls rs hrs),
            congrArg (· + 1) hlength, ?_, hcompletes, ?_, hcomplete⟩
          · exact List.forall_mem_cons.mpr
              ⟨⟨congrArg (Except.map Returned.ended) hresult, hamid.running⟩, hwaits⟩
          · rw [List.cons_append, List.flatMap_cons, ← List.append_assoc]
            exact hbytes
      | completes _ _ _ hwhole' =>
          exact absurd (hwhole'.trans (List.prefix_append _ _)) hmissing

-- The pushes after it, in front of other calls.
theorem reports_stay (hsink : Accepting σ) (sink : σ) {after : List (List UInt8)}
    (hrest : ∀ q ∈ after, q ≠ [] → RestsAtEnd c) {d : Decoder c} (hd : d.Complete out) :
    ∃ later e, e.Complete out ∧ (∀ calls rs, Settles (fun fuel => reports fuel e calls) (.ok rs) →
        Settles (fun fuel => reports fuel d (pushes sink after ++ calls)) (.ok (later ++ rs))) ∧
      later.length = after.length ∧ ∀ r ∈ later, r.Completes out ∧ r.chunks = [] := by
  induction after generalizing d with
  | nil => exact ⟨[], d, hd, fun _ _ hrs => hrs, rfl, List.forall_mem_nil _⟩
  | cons q after ih =>
      rw [List.forall_mem_cons] at hrest
      rcases push_rests hd hrest.1 hsink (Recorder.ofSink sink) with
        ⟨r, hr, hresult, hcomplete, hhanded⟩
      rcases ih hrest.2 hcomplete with ⟨later, e, he, hcalls, hlength, hlater⟩
      refine ⟨.ofPush d r :: later, e, he, fun calls rs hrs =>
        settles_reports_cons (settles_report_push hr) (hcalls calls rs hrs),
        congrArg (· + 1) hlength, ?_⟩
      exact List.forall_mem_cons.mpr ⟨⟨completes_ofPush hresult hcomplete, hhanded⟩, hlater⟩

omit [Sink σ] in
theorem created_amid (hc : c.Carries x out) (memory : M) (size : BufferSize) :
    (created c memory size false).Amid x [] [] := by
  rcases hc.start memory with ⟨s, memory', hstart⟩
  have hcreated : created c memory size false =
      { (idle c memory).startedAt 0 s memory' with
        bufferSize := size, multipleMembers := false } := by
    rw [created, create, reset_of_ok (d := idle c memory) hstart]
  rw [hcreated]
  exact ⟨⟨s, rfl, .fresh hstart, hc.fresh hstart⟩, rfl, rfl, rfl, rfl⟩

/-- What comes after a stream is ignored, unless it comes in a later piece and the codec does not
    rest. -/
theorem trailing_ignored (hc : c.Carries x out) (hsink : Accepting σ)
    (hsize : out.length < offsetLimit) (sink : σ) (memory : M) (size : BufferSize)
    {before after : List (List UInt8)} {p : List UInt8} (hcut : Cut x before p)
    (hrest : ∀ q ∈ after, q ≠ [] → RestsAtEnd c) :
    c.Ignores out memory size sink before p after := by
  have hamid := created_amid hc memory size
  rcases reports_complete hc hsink hsize sink hamid hcut.early hcut.whole with
    ⟨waiting, last, hcalls, hlength, hwaits, hcompletes, hbytes, hcomplete⟩
  rcases reports_stay hsink sink hrest hcomplete with ⟨later, e, _, hafter, hlength', hlater⟩
  refine ⟨waiting, last, later, ?_, hlength, hlength', hwaits, hcompletes, hbytes, hlater⟩
  have hall := hcalls _ _ (hafter [] [] (settles_of_ok rfl))
  rw [List.append_nil, List.append_nil, ← pushes_append, List.append_assoc,
    List.singleton_append] at hall
  exact hall

/-- If the codec refuses to be run after the end of a stream, the first further bytes that come in
    a later piece make the decoder fail and start over. -/
theorem trailing_refused {error : StepError} (hc : c.Carries x out) (hrefuse : RefusesAtEnd c error)
    (hsink : Accepting σ) (hsize : out.length < offsetLimit) (sink : σ) (memory : M)
    (size : BufferSize) {before empty : List (List UInt8)} {p q : List UInt8}
    (hcut : Cut x before p) (hempty : ∀ b ∈ empty, b = []) (hq : q ≠ []) :
    c.Refuses out error memory size sink before p empty q := by
  have hamid := created_amid hc memory size
  rcases reports_complete hc hsink hsize sink hamid hcut.early hcut.whole with
    ⟨waiting, last, hcalls, hlength, hwaits, hcompletes, hbytes, hcomplete⟩
  have hrest : ∀ b ∈ empty, b ≠ [] → RestsAtEnd c := fun b hb hne => absurd (hempty b hb) hne
  rcases reports_stay hsink sink hrest hcomplete with ⟨later, e, he, hafter, hlength', hlater⟩
  rcases push_refused hrefuse he hq hsink (Recorder.ofSink sink) with
    ⟨r, hr, hresult, hhanded, hcreated⟩
  refine ⟨waiting, last, later, .ofPush e r, ?_, hlength, hlength',
    ⟨hwaits, hcompletes, hbytes, hlater⟩, congrArg (Except.map Returned.ended) hresult, hhanded,
    hcreated⟩
  have hrefused : Settles (fun fuel => reports fuel e (pushes sink [q])) (.ok [.ofPush e r]) :=
    settles_reports_cons (settles_report_push hr) (settles_of_ok rfl)
  have hall := hcalls _ _ (hafter _ _ hrefused)
  rw [← pushes_append, ← pushes_append, List.append_assoc, List.singleton_append] at hall
  rw [List.append_assoc, List.append_assoc]
  exact hall

end Pieces

end Decompression
