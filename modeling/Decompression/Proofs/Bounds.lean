import Decompression.Proofs.Readiness

/-!
# Cursors and Offsets within Bounds

A step trusts its session with nothing: where a cursor or a count cannot be right there is no
answer, but a fault. A session that keeps its cursors within their buffers and counts its
output never gives rise to one. The decoder's offset and the session's count of its output
are kept apart and have to agree all the time; `Decoder.Aligned` says how, and that it lasts
over members, failures and resets.

What is left is the size of an offset. It is a number of 64 bits, so a stream that decodes to
more bytes than there are offsets ends in a fault. That is the only one.

## Main definitions

* `Codec.Contract`: Cursors stay within their buffers, and output is counted from zero.
* `Decoder.Aligned`: The offset is where the session's count says.
* `Decoder.Safe`: At this moment nothing can go out of bounds.
* `Decoder.Exceeds`: At this moment the offset can leave its range.
* `Overruns`, `OverrunsReading`: It does so in the course of a push, or of a reading.
* `Made`: The calls that are made in the course of a list of calls.
* `Call.Sound`: Nothing goes out of bounds in the course of a call.

## Theorems

* `aligned_enduring`: Every decoder is aligned at all times.
* `fault_of_attempt`: An attempt faults for an offset out of range only.
* `fault_of_push`, `fault_of_step`, `fault_of_readAll`: So do whole calls.
* `nothing_out_of_bounds`: All of it, for every list of calls.
-/

namespace Decompression

open Decoder Loop

variable {S M : Type} {c : Codec S M}

/-- Cursors stay within their buffers, whether a step succeeds or not, and a session counts its
    output from zero. -/
structure Codec.Contract (c : Codec S M) : Prop where
  fresh : ∀ {memory memory' s}, c.start memory = (.ok s, memory') → c.totalOut s = 0
  read : ∀ {s : S} {input : Cursor} {buffer : List UInt8} {stepped : Stepped S},
    c.Reached s → input.InBounds → buffer ≠ [] → c.step s input (.ofBytes buffer) = stepped →
    stepped.input.InBounds
  written : ∀ {s : S} {input : Cursor} {buffer : List UInt8} {stepped : Stepped S}
      {status : Status},
    c.Reached s → input.InBounds → buffer ≠ [] → c.step s input (.ofBytes buffer) = stepped →
    stepped.outcome = .ok status → stepped.output.InBounds
  -- The output cursor starts at zero.
  count : ∀ {s : S} {input : Cursor} {buffer : List UInt8} {stepped : Stepped S} {status : Status},
    c.Reached s → input.InBounds → buffer ≠ [] → c.step s input (.ofBytes buffer) = stepped →
    stepped.outcome = .ok status → c.totalOut stepped.session = c.totalOut s + stepped.output.index

/-! ## The offset and the count -/

section Alignment

/-- The session has been started and has not failed since, and it has counted its output from the
    beginning of its member to the offset. -/
structure Decoder.Aligned (d : Decoder c) : Prop where
  live : d.Live
  count : ∀ s, d.session = some s → d.memberBase + c.totalOut s = d.outputOffset

variable {d : Decoder c} {input : Cursor} {events : List Event}

theorem aligned_of_none (h : d.session = none) : d.Aligned where
  live s hs := by
    rw [h] at hs
    cases hs
  count s hs := by
    rw [h] at hs
    cases hs

theorem aligned_started (hc : c.Contract) (d : Decoder c) (offset : Nat) {s : S}
    {memory memory' : M} (hstart : c.start memory = (.ok s, memory')) :
    (d.startedAt offset s memory').Aligned where
  live := live_started d offset hstart
  count s' hs' := by
    cases hs'
    rw [hc.fresh hstart]
    rfl

theorem aligned_reset (hc : c.Contract) (d : Decoder c) : d.reset.decoder.Aligned := by
  rcases reset_cases d with ⟨s, memory, hstart, hreset⟩ | ⟨cause, memory, _, hreset⟩
  · rw [hreset]
    exact aligned_started hc d 0 hstart
  · rw [hreset]
    exact aligned_of_none rfl

theorem Decoder.Aligned.entered (hd : d.Aligned) (hc : c.Contract) {entered : Decoder c}
    (h : Entered d input events entered) : entered.Aligned := by
  cases h with
  | stay _ => exact hd
  | member _ _ _ hstart => exact aligned_started hc d _ hstart

/-- A session that was run has counted what it wrote. -/
theorem Decoder.Aligned.counted (hd : d.Aligned) (hc : c.Contract) {s : S}
    (hs : d.session = some s) (hbounds : input.InBounds) {buffer : List UInt8}
    (hroom : buffer ≠ []) {stepped : Stepped S}
    (hstep : c.step s input (.ofBytes buffer) = stepped) {status : Status}
    (houtcome : stepped.outcome = .ok status) :
    d.memberBase + c.totalOut stepped.session = d.outputOffset + stepped.output.index := by
  rw [hc.count (hd.live s hs) hbounds hroom hstep houtcome, ← hd.count s hs, Nat.add_assoc]

theorem Decoder.Aligned.ran (hd : d.Aligned) (hc : c.Contract) {σ : Type} {alloc : Allocator σ}
    {sink served : σ} {entered : Decoder c} {s : S} {buffer : List UInt8} {stepped : Stepped S}
    {status : Status}
    (h : Ran alloc d input sink events entered s buffer served stepped)
    (houtcome : stepped.outcome = .ok status) (hnothing : stepped.output.front = []) :
    (entered.afterStep input stepped status).Aligned where
  live := live_lasting.ran h houtcome hd.live
  count s' hs' := by
    rw [afterStep_session] at hs'
    cases hs'
    have hentered := hd.entered hc h.enter
    have hwritten := hc.written (hentered.live s h.session) h.bounds h.room h.step houtcome
    have hindex : stepped.output.index = 0 := by
      rw [← Cursor.length_front hwritten, hnothing]
      rfl
    rw [afterStep_memberBase, afterStep_outputOffset,
      hentered.counted hc h.session h.bounds h.room h.step houtcome, hindex, Nat.add_zero]

/-- The offset is where the session's count says, whatever the decoder does. -/
theorem aligned_enduring (hc : c.Contract) : Enduring (Aligned (c := c)) where
  reset _ := aligned_reset hc _
  attempt := by
    intro σ alloc w r hready hw hr
    have hcases := attempted_of_eq hready hr
    cases hcases with
    | spent _ _ => exact hw
    | refused _ _ _ _ => exact aligned_of_none rfl
    | unserved _ _ => exact aligned_reset hc _
    | failed _ _ _ => exact aligned_reset hc _
    | starved hran _ houtcome _ hnothing => exact hw.ran hc hran houtcome hnothing
    | passed hran _ houtcome _ hnothing _ => exact hw.ran hc hran houtcome hnothing
    | closed hran _ houtcome _ hnothing _ => exact hw.ran hc hran houtcome hnothing
    | filled hran _ houtcome _ _ hcount _ =>
        refine ⟨live_lasting.moved _ (live_lasting.ran hran houtcome hw.live), fun s hs => ?_⟩
        rw [show s = _ from Option.some.inj (hs.symm.trans afterStep_session)]
        exact (congrArg (· + _) afterStep_memberBase).trans hcount.symm
  ended _ := by
    rw [endSession_eq]
    exact aligned_of_none rfl
  resized _ hd := ⟨hd.live, hd.count⟩
  configured _ hd := ⟨hd.live, hd.count⟩

theorem Decoder.Reachable.aligned (hc : c.Contract) (hd : Reachable d) : d.Aligned :=
  (aligned_enduring hc).reachable (fun _ => aligned_of_none rfl) hd

end Alignment

/-! ## The moments of a call -/

/-- At this moment nothing can go out of bounds: there is a session whenever one is to be run, also
    for a further member, its cursors stay within their buffers, and the chunk that it fills lies
    where the decoder has come to. -/
structure Decoder.Safe (d : Decoder c) (input : Cursor) : Prop where
  position : input.InBounds
  session : ∀ {events : List Event} {entered : Decoder c}, Entered d input events entered →
    entered.session ≠ none
  run : ∀ {events : List Event} {entered : Decoder c} {s : S} {buffer : List UInt8}
    {stepped : Stepped S}, Entered d input events entered → entered.session = some s →
    buffer ≠ [] → c.step s input (.ofBytes buffer) = stepped →
    stepped.input.InBounds ∧ ∀ status, stepped.outcome = .ok status →
      stepped.output.InBounds ∧
      (entered.outputOffset + stepped.output.index < offsetLimit →
        (entered.afterStep input stepped status).chunkOffset stepped.output.index =
          .ok entered.outputOffset ∧
        (entered.afterStep input stepped status).moveBy stepped.output.index =
          .ok { entered.afterStep input stepped status with
            outputOffset := entered.outputOffset + stepped.output.index })

/-- At this moment a step of the session can take the offset out of its range: so much has been
    decoded. -/
def Decoder.Exceeds (d : Decoder c) (input : Cursor) : Prop :=
  ∃ events entered s buffer stepped status, Entered d input events entered ∧
    entered.session = some s ∧ buffer.length = entered.bufferSize.toNat ∧
    c.step s input (.ofBytes buffer) = stepped ∧ stepped.outcome = .ok status ∧
    offsetLimit ≤ entered.outputOffset + stepped.output.index

section Moments

variable {σ : Type}

/-- There is a session, and everything is in place to run it. -/
structure Decoder.Poised (d : Decoder c) (input : Cursor) : Prop where
  ready : d.session ≠ none
  aligned : d.Aligned
  bounds : input.InBounds

theorem Decoder.Poised.safe (hc : c.Contract) {d : Decoder c} {input : Cursor}
    (hd : d.Poised input) : d.Safe input where
  position := hd.bounds
  session henter hnone := by
    rcases entered_session henter hd.ready with ⟨s, hs⟩
    rw [hnone] at hs
    cases hs
  run := by
    intro events entered s buffer stepped henter hs hroom hstep
    have hentered := hd.aligned.entered hc henter
    have hreached := hentered.live s hs
    refine ⟨hc.read hreached hd.bounds hroom hstep, fun status houtcome =>
      ⟨hc.written hreached hd.bounds hroom hstep houtcome, fun hrange => ?_⟩⟩
    have hcount := hentered.counted hc hs hd.bounds hroom hstep houtcome
    have hsession : (entered.afterStep input stepped status).session = some stepped.session :=
      afterStep_session
    have hsum : (entered.afterStep input stepped status).outputOffset + stepped.output.index =
        (entered.afterStep input stepped status).memberBase + c.totalOut stepped.session := by
      rw [afterStep_outputOffset, afterStep_memberBase, hcount]
    have hless : (entered.afterStep input stepped status).outputOffset + stepped.output.index <
        offsetLimit := by
      rw [afterStep_outputOffset]
      exact hrange
    rw [chunkOffset_of_count hsession hsum hless, moveBy_of_count hsession hsum hless,
      afterStep_outputOffset]
    exact ⟨rfl, rfl⟩

/-- An attempt faults for an offset out of range, and for nothing else. -/
theorem fault_of_attempt (hc : c.Contract) {alloc : Allocator σ} {w : Scene c Cursor σ}
    (hw : w.decoder.Poised w.input) {fault : Fault} (h : attempt alloc w = .error fault) :
    fault = .offsetOverflow ∧ w.decoder.Exceeds w.input := by
  have hcases := attempted_of_eq hw.ready h
  cases hcases with
  | lost hlost => exact absurd hw.bounds hlost
  | overread ran hread =>
      have hreached := (hw.aligned.entered hc ran.enter).live _ ran.session
      exact absurd (hc.read hreached ran.bounds ran.room ran.step) hread
  | overwritten ran _ houtcome hwritten =>
      have hreached := (hw.aligned.entered hc ran.enter).live _ ran.session
      exact absurd (hc.written hreached ran.bounds ran.room ran.step houtcome) hwritten
  | @miscounted events entered s buffer served stepped status _ ran hread houtcome hwritten
      hsomething hcount _ =>
      have hfits := (hw.aligned.entered hc ran.enter).counted hc ran.session ran.bounds ran.room
        ran.step houtcome
      rw [← Cursor.length_front hwritten] at hfits
      have hrange : ¬ entered.outputOffset + stepped.output.front.length < offsetLimit :=
        fun hrange => hcount ⟨hfits.symm, hrange⟩
      refine ⟨?_, events, entered, s, buffer, stepped, status, ran.enter, ran.session, ran.size,
        ran.step, houtcome, ?_⟩
      · have hwent : Went alloc w.decoder w.input w.sink events entered s buffer served stepped
            status := ⟨ran, hread, houtcome, hwritten⟩
        have hattempt : attempt alloc w = .error .offsetOverflow := by
          have hoverflow := concludeChunk_of_overflow (d := entered.afterStep w.input stepped status)
            stepped.input status afterStep_session
            (by rw [afterStep_outputOffset, afterStep_memberBase, hfits])
            (by rw [afterStep_outputOffset]; exact hrange)
          rw [show attempt alloc w = attempt alloc ⟨w.decoder, w.input, w.sink⟩ from rfl,
            attempt_of_went hwent, if_neg hsomething, hoverflow]
          rfl
        exact Except.error.inj (h.symm.trans hattempt)
      · rw [← Cursor.length_front hwritten]
        omega

/-- After an attempt the input cursor is in bounds, because it has been checked. -/
theorem attempt_bounds {alloc : Allocator σ} {w : Scene c Cursor σ}
    (hready : w.decoder.session ≠ none) (hbounds : w.input.InBounds)
    {r : Round Event (Scene c Cursor σ) (Turn c Cursor σ Progress)}
    (h : attempt alloc w = .ok r) :
    r.All (fun next => next.input.InBounds) fun turn => turn.input.InBounds := by
  have hcases := attempted_of_eq hready h
  cases hcases with
  | spent _ _ => exact hbounds
  | refused _ _ _ _ => exact hbounds
  | unserved _ _ => exact hbounds
  | failed _ hread _ => exact hread
  | starved _ hread _ _ _ => exact hread
  | passed _ hread _ _ _ _ => exact hread
  | closed _ hread _ _ _ _ => exact hread
  | filled _ hread _ _ _ _ _ => exact hread

-- In the course of a step.
theorem Decoder.Poised.attempts (hc : c.Contract) {alloc : Allocator σ}
    {w w' : Scene c Cursor σ} {events : List Event} (hw : w.decoder.Poised w.input)
    (h : Leads (fun _ => attempt alloc) w events w') : w'.decoder.Poised w'.input :=
  h.keeps (I := fun w => w.decoder.Poised w.input) (fun hw hround =>
    { ready := attempt_ready hw.ready hround.of_const
      aligned := (aligned_enduring hc).attempt hw.ready hw.aligned hround.of_const
      bounds := attempt_bounds hw.ready hw.bounds hround.of_const }) hw

/-- A step that faults does so for an offset out of range. -/
theorem fault_of_step (hc : c.Contract) {alloc : Allocator σ} {w : Scene c Cursor σ}
    (hw : w.decoder.Poised w.input) {fuel : Nat} {fault : Fault}
    (h : step fuel alloc w = .error fault) (hne : fault ≠ .outOfFuel) :
    fault = .offsetOverflow ∧
      ∃ events w', Leads (fun _ => attempt alloc) w events w' ∧ w'.decoder.Exceeds w'.input := by
  have hsettles := (stable_step alloc w).settles h fun hc => hne (Except.error.inj hc)
  rcases ((settles_step_iff hw.ready).mp hsettles).faulty with ⟨events, w', hleads, hfault⟩
  rcases fault_of_attempt hc (hw.attempts hc hleads) hfault.of_const with ⟨hoverflow, hexceeds⟩
  exact ⟨hoverflow, events, w', hleads, hexceeds⟩

theorem step_bounds {alloc : Allocator σ} {fuel : Nat} {w : Scene c Cursor σ}
    (hbounds : w.input.InBounds) {q : Logged Event (Turn c Cursor σ Progress)}
    (h : step fuel alloc w = .ok q) : q.result.input.InBounds := by
  by_cases hready : w.decoder.session = none
  · rw [step_of_not_ready hready] at h
    cases h
    exact hbounds
  · simp only [step, isReady_iff.mpr hready, if_true] at h
    refine run_all (I := fun w => w.decoder.session ≠ none ∧ w.input.InBounds)
      (Q := fun turn => turn.input.InBounds) (fun w r hw hround => ?_) ⟨hready, hbounds⟩ h
    have hall := attempt_bounds hw.1 hw.2 hround
    cases r with
    | again events next => exact ⟨attempt_ready hw.1 hround, hall⟩
    | done events turn => exact hall

variable [Sink σ]

-- What becomes of a chunk does not touch the input.
theorem takeProgress_bounds (events : List Event) {turn : Turn c Cursor σ Progress}
    (h : turn.input.InBounds) :
    (takeProgress events turn).All (fun next => next.input.InBounds)
      fun turn' => turn'.input.InBounds := by
  have hdeliver : ∀ (last : Bool) (chunk : Chunk), (deliverThen last events chunk turn.toScene).All
      (fun next => next.input.InBounds) fun turn' => turn'.input.InBounds := by
    intro last chunk
    rcases hpush : Sink.push turn.sink chunk with ⟨cause | taken, sink⟩
    · rw [deliverThen_of_error hpush]
      exact h
    · rw [deliverThen_of_ok hpush]
      cases last <;> exact h
  rcases turn with ⟨w, error | chunk | (_ | chunk) | _⟩
  · exact h
  · exact hdeliver false chunk
  · exact h
  · exact hdeliver true chunk
  · exact h

theorem push_bounds {fuel : Nat} {w : Scene c Cursor σ} (hbounds : w.input.InBounds)
    {q : Logged Event (Turn c Cursor σ Bool)} (h : pushCursor fuel w = .ok q) :
    q.result.input.InBounds := by
  refine run_all (I := fun w => w.input.InBounds) (Q := fun turn => turn.input.InBounds)
    (fun w r hw hround => ?_) hbounds h
  rw [pushRound_eq] at hround
  rcases map_eq_ok hround with ⟨p, hstep, rfl⟩
  exact takeProgress_bounds p.events (step_bounds hw hstep)

-- In the course of a push.
theorem Decoder.Poised.drives (hc : c.Contract) {w w' : Scene c Cursor σ} {events : List Event}
    (hw : w.decoder.Poised w.input) (h : Leads (fun _ => drive) w events w') :
    w'.decoder.Poised w'.input := by
  refine h.keeps (I := fun w => w.decoder.Poised w.input) (fun hw hround => ?_) hw
  have hgoes := goes_of_settles hw.ready hround fun events turn hr => by cases hr
  exact ⟨drive_ready hw.ready hround.of_const,
    (aligned_enduring hc).drive hw.ready hw.aligned hround.of_const, hgoes.keeps.2.1⟩

-- In the course of a reading.
theorem aligned_of_reading (hc : c.Contract) {w w' : Scene c Reader σ} {events : List Event}
    (hw : w.decoder.Aligned) (h : Leads readRound w events w') : w'.decoder.Aligned :=
  h.keeps (I := fun w : Scene c Reader σ => w.decoder.Aligned)
    (fun hs hround => (aligned_enduring hc).readRound hs hround.exists_fuel.choose_spec) hw

end Moments

/-! ## Whole calls -/

section Calls

variable {σ : Type} [Sink σ]

/-- The call is given a position within its input. -/
def Call.InBounds : Call σ → Prop
  | .next input => input.InBounds
  | _ => True

/-- Nothing goes out of bounds in the course of a call. -/
structure Call.Sound (d : Decoder c) (call : Call σ) : Prop where
  -- At every moment
  moments : d.isReady = true → ∀ {e input left}, call.Comes d e input left → e.Safe input
  -- When a push is over, and when the call is
  pushes : ∀ {start left fuel q}, call.Begins d start left → pushCursor fuel start = .ok q →
    q.result.input.InBounds
  left : ∀ {fuel r input}, call.report fuel d = .ok r → r.left = .cursor input → input.InBounds
  -- A session that was there is never missed.
  ready : ∀ {fuel r}, call.report fuel d = .ok r → d.isReady = true → r.answer ≠ .error .notReady
  fault : ∀ {fuel fault}, call.report fuel d = .error fault → fault ≠ .outOfFuel →
    fault = .offsetOverflow ∧ d.isReady = true ∧
      ∃ e input left, call.Comes d e input left ∧ e.Exceeds input

theorem poised_of_begins (hc : c.Contract) {d : Decoder c} (hready : d.session ≠ none)
    (hd : d.Aligned) {call : Call σ} {start : Scene c Cursor (Recorder σ)}
    {left : Cursor → Remainder} (h : call.Begins d start left) :
    start.decoder.Poised start.input := by
  cases h with
  | push input sink => exact ⟨hready, hd, Nat.zero_le _⟩
  | @readAll reader sink events w buffer hleads hfill hmore =>
      have haligned : w.decoder.Aligned := aligned_of_reading hc hd hleads
      rcases stands_of_leads hleads with hwaits | halong
      · exact absurd hwaits.unready hready
      · exact ⟨halong.ready, haligned, Nat.zero_le _⟩

theorem poised_of_comes (hc : c.Contract) {d : Decoder c} (hready : d.session ≠ none)
    (hd : d.Aligned) {call : Call σ} (hcall : call.InBounds) {e : Decoder c} {input : Cursor}
    {left : Remainder} (h : call.Comes d e input left) : e.Poised input := by
  cases h with
  | pushing hbegins hleads => exact (poised_of_begins hc hready hd hbegins).drives hc hleads
  | @next input events w hleads =>
      have hpoised : d.Poised input := ⟨hready, hd, hcall⟩
      exact Decoder.Poised.attempts hc hpoised hleads

theorem stable_report (d : Decoder c) (call : Call σ) : Stable fun fuel => call.report fuel d := by
  cases call with
  | push input sink => exact (stable_push _).map _
  | next input => exact (stable_step _ _).map _
  | readAll reader sink => exact (stable_run stable_readRound _).map _
  | _ => exact stable_const _

/-- In the course of a push more is decoded than there are offsets for. -/
def Overruns (start : Scene c Cursor σ) : Prop :=
  ∃ events w, Leads (fun _ => drive) start events w ∧ w.decoder.Exceeds w.input

/-- A push that faults does so for an offset out of range. -/
theorem fault_of_push (hc : c.Contract) {w : Scene c Cursor σ} (hw : w.decoder.Aligned)
    (hbounds : w.input.InBounds) {fuel : Nat} {fault : Fault}
    (h : pushCursor fuel w = .error fault) (hne : fault ≠ .outOfFuel) :
    fault = .offsetOverflow ∧ Overruns w := by
  have hsettles := (stable_push w).settles h fun hc => hne (Except.error.inj hc)
  by_cases hready : w.decoder.session = none
  · cases hsettles.unique (settles_push_of_not_ready hready)
  · rcases ((settles_push_iff hready).mp hsettles).faulty with ⟨events, w', hleads, hfault⟩
    have hpoised : w.decoder.Poised w.input := ⟨hready, hw, hbounds⟩
    rcases fault_of_attempt hc (hpoised.drives hc hleads) (map_eq_error hfault.of_const) with
      ⟨hoverflow, hexceeds⟩
    exact ⟨hoverflow, events, w', hleads, hexceeds⟩

/-- In the course of a reading a buffer is pushed, and more is decoded than there are offsets
    for. -/
def OverrunsReading (start : Scene c Reader σ) : Prop :=
  ∃ events w buffer, Leads readRound start events w ∧ w.input.fill = (.ok buffer, w.input) ∧
    buffer ≠ [] ∧ Overruns (⟨w.decoder, .ofBytes buffer, w.sink⟩ : Scene c Cursor σ)

/-- A reading that faults does so for an offset out of range. -/
theorem fault_of_readAll (hc : c.Contract) {w : Scene c Reader σ} (hw : w.decoder.Aligned)
    {fuel : Nat} {fault : Fault} (h : run (readRound fuel) fuel w = .error fault)
    (hne : fault ≠ .outOfFuel) : fault = .offsetOverflow ∧ OverrunsReading w := by
  have hends : Ends readRound w (.error fault) :=
    ends_of_run stable_readRound fuel h fun hc => hne (Except.error.inj hc)
  rcases hends.faulty with ⟨events, ⟨e, shown, sink⟩, hleads, hfault⟩
  rcases hfault.exists_fuel with ⟨rounds, hround⟩
  rcases hfill : shown.fill with ⟨cause | buffer, shown'⟩
  · rw [readRound_of_fail hfill] at hround
    by_cases hkind : cause.kind = .interrupted
    · rw [if_pos hkind] at hround
      cases hround
    · rw [if_neg hkind] at hround
      cases hround
  · have hshown : shown' = shown := fill_ok hfill
    subst hshown
    by_cases hmore : buffer = []
    · subst hmore
      rw [readRound_of_end hfill] at hround
      cases hround
    · rw [readRound_of_data hfill hmore] at hround
      have haligned : e.Aligned := aligned_of_reading hc hw hleads
      rcases fault_of_push (w := ⟨e, .ofBytes buffer, sink⟩) hc haligned (Nat.zero_le _)
        (map_eq_error hround) hne with ⟨hoverflow, hoverruns⟩
      exact ⟨hoverflow, events, _, buffer, hleads, hfill, hmore, hoverruns⟩

theorem fault_of_report (hc : c.Contract) {d : Decoder c} (hready : d.session ≠ none)
    (hd : d.Aligned) {call : Call σ} (hcall : call.InBounds) {fuel : Nat} {fault : Fault}
    (h : call.report fuel d = .error fault) (hne : fault ≠ .outOfFuel) :
    fault = .offsetOverflow ∧ ∃ e input left, call.Comes d e input left ∧ e.Exceeds input := by
  cases call with
  | push input sink =>
      rcases fault_of_push hc (w := ⟨d, .ofBytes input, Recorder.ofSink sink⟩) hd (Nat.zero_le _)
        (map_eq_error h) hne with ⟨hoverflow, events, w, hleads, hexceeds⟩
      exact ⟨hoverflow, _, _, _, .pushing (.push input sink) hleads, hexceeds⟩
  | next input =>
      rcases fault_of_step hc (w := ⟨d, input, ()⟩) ⟨hready, hd, hcall⟩ (map_eq_error h) hne with
        ⟨hoverflow, events, w, hleads, hexceeds⟩
      exact ⟨hoverflow, _, _, _, .next hleads, hexceeds⟩
  | readAll reader sink =>
      rcases fault_of_readAll hc (w := ⟨d, reader, Recorder.ofSink sink⟩) hd (map_eq_error h) hne with
        ⟨hoverflow, events, w, buffer, hleads, hfill, hmore, events', w', hleads', hexceeds⟩
      exact ⟨hoverflow, _, _, _, .pushing (.readAll hleads hfill hmore) hleads', hexceeds⟩
  | _ => cases h

theorem answer_ne_notReady {d : Decoder c} {call : Call σ} {fuel : Nat} {r : Report c σ}
    (h : call.report fuel d = .ok r) (hready : d.isReady = true) : r.answer ≠ .error .notReady := by
  intro hanswer
  have hfailed := (failed_of_report h hanswer).1
  generalize herror : DecodeError.notReady = error at hfailed
  cases hfailed with
  | notReady hunready _ _ =>
      rw [hready] at hunready
      cases hunready
  | sink hrefused =>
      -- A sink refuses a buffer or a chunk, and says so.
      generalize r.calls = calls at hrefused
      cases hrefused with
      | @last calls call _ hrefusal =>
          subst herror
          rcases call with ⟨offset, size, cause | buffer⟩ | ⟨chunk, cause | taken⟩
          · cases hrefusal
          · simp only [SinkCall.refusal?] at hrefusal
            split at hrefusal <;> cases hrefusal
          · cases hrefusal
          · cases hrefusal
  | _ => cases herror

theorem left_bounds {d : Decoder c} {call : Call σ} (hcall : call.InBounds) {fuel : Nat}
    {r : Report c σ} (h : call.report fuel d = .ok r) {input : Cursor}
    (hleft : r.left = .cursor input) : input.InBounds := by
  cases call with
  | push bytes sink =>
      rcases map_eq_ok h with ⟨q, hpush, rfl⟩
      cases hleft
      exact push_bounds (Nat.zero_le _) hpush
  | next before =>
      rcases map_eq_ok h with ⟨q, hnext, rfl⟩
      cases hleft
      exact step_bounds (w := ⟨d, before, ()⟩) hcall hnext
  | readAll reader sink =>
      rcases map_eq_ok h with ⟨q, hread, rfl⟩
      cases hleft
  | _ => cases h; cases hleft

/-- Nothing goes out of bounds in the course of a call, with a session or without one. -/
theorem call_sound (hc : c.Contract) {d : Decoder c} (hd : d.Aligned) {call : Call σ}
    (hcall : call.InBounds) : call.Sound d where
  moments hready _ _ _ hcomes := (poised_of_comes hc (isReady_iff.mp hready) hd hcall hcomes).safe hc
  pushes hbegins hpush := by
    refine push_bounds ?_ hpush
    cases hbegins with
    | push _ _ => exact Nat.zero_le _
    | readAll _ _ _ => exact Nat.zero_le _
  left hreport hleft := left_bounds hcall hreport hleft
  ready := answer_ne_notReady
  fault := by
    intro fuel fault h hne
    by_cases hready : d.session = none
    · -- Without a session there is an answer, once there is any fuel.
      by_cases hreset : call.resets = true
      · cases call with
        | reset => cases h
        | _ => cases hreset
      · rcases report_of_unready hready (Bool.not_eq_true _ ▸ hreset) (Nat.lt_succ_self call.span)
          with ⟨r, hr, _⟩
        have hfault := (stable_report d call).settles h fun hc => hne (Except.error.inj hc)
        have hanswer := (stable_report d call).settles hr (ok_ne_outOfFuel r)
        cases hfault.unique hanswer
    · rcases fault_of_report hc hready hd hcall h hne with ⟨hoverflow, hexceeds⟩
      exact ⟨hoverflow, isReady_iff.mpr hready, hexceeds⟩

/-! ## Lists of calls -/

/-- In the course of some calls on a decoder, this call is made on this decoder. -/
inductive Made (fuel : Nat) : Decoder c → List (Call σ) → Decoder c → Call σ → Prop
  | here (d : Decoder c) (call : Call σ) (rest : List (Call σ)) : Made fuel d (call :: rest) d call
  | later {d e : Decoder c} {first call : Call σ} {rest : List (Call σ)} {r : Report c σ}
      (report : first.report fuel d = .ok r) (made : Made fuel r.after rest e call) :
      Made fuel d (first :: rest) e call

theorem aligned_of_report (hc : c.Contract) {d : Decoder c} (hd : d.Aligned) {call : Call σ}
    {fuel : Nat} {r : Report c σ} (h : call.report fuel d = .ok r) : r.after.Aligned := by
  have hrun : call.run fuel d = .ok r.toRecord := by
    rw [run_eq_report, h]
    rfl
  exact (aligned_enduring hc).run hd hrun

theorem aligned_of_made (hc : c.Contract) {fuel : Nat} {calls : List (Call σ)} {d e : Decoder c}
    {call : Call σ} (h : Made fuel d calls e call) (hd : d.Aligned) : e.Aligned ∧ call ∈ calls := by
  induction h with
  | here _ _ _ => exact ⟨hd, List.mem_cons_self⟩
  | later hreport _ ih =>
      rcases ih (aligned_of_report hc hd hreport) with ⟨haligned, hmem⟩
      exact ⟨haligned, List.mem_cons_of_mem _ hmem⟩

-- Calls that do not all return come to one that does not.
theorem made_of_fault {fuel : Nat} {calls : List (Call σ)} {d : Decoder c} {fault : Fault}
    (h : reports fuel d calls = .error fault) :
    ∃ e call, Made fuel d calls e call ∧ call.report fuel e = .error fault := by
  induction calls generalizing d with
  | nil => cases h
  | cons call rest ih =>
      rw [reports] at h
      cases hreport : call.report fuel d with
      | error fault' =>
          rw [hreport] at h
          cases h
          exact ⟨d, call, .here d call rest, hreport⟩
      | ok r =>
          rw [hreport] at h
          rcases ih (map_eq_error h) with ⟨e, other, hmade, hfault⟩
          exact ⟨e, other, .later hreport hmade, hfault⟩

/-- Whatever calls are made on a decoder, with whatever input, sinks and refused sessions, nothing
    goes out of bounds as long as the sessions keep to their contract: cursors stay within their
    buffers, the two counts of the output agree, and there is a session whenever one is to be run.
    The only fault is that more is decoded than there are offsets for. -/
theorem nothing_out_of_bounds (hc : c.Contract) {d : Decoder c} (hd : Reachable d) {fuel : Nat}
    {calls : List (Call σ)} (hcalls : ∀ call ∈ calls, call.InBounds) :
    (∀ e call, Made fuel d calls e call → call.Sound e) ∧
    ∀ fault, reports fuel d calls = .error fault → fault = .outOfFuel ∨
      fault = .offsetOverflow ∧ ∃ e call e' input left, Made fuel d calls e call ∧
        call.Comes e e' input left ∧ e'.Exceeds input := by
  have hsound : ∀ e call, Made fuel d calls e call → call.Sound e := by
    intro e call hmade
    rcases aligned_of_made hc hmade (hd.aligned hc) with ⟨haligned, hmem⟩
    exact call_sound hc haligned (hcalls call hmem)
  refine ⟨hsound, fun fault h => ?_⟩
  rcases made_of_fault h with ⟨e, call, hmade, hfault⟩
  by_cases hfuel : fault = .outOfFuel
  · exact Or.inl hfuel
  · rcases (hsound e call hmade).fault hfault hfuel with
      ⟨hoverflow, _, e', input, left, hcomes, hexceeds⟩
    exact Or.inr ⟨hoverflow, e, call, e', input, left, hmade, hcomes, hexceeds⟩

end Calls

/-! ## Calls with a codec that copies -/

theorem copier_contract : copier.Contract where
  fresh := copier_honest.fresh
  read := by
    rintro ⟨total, ended⟩ input buffer stepped _ hbounds hroom hstep
    cases ended with
    | true =>
        subst hstep
        exact hbounds
    | false =>
        rcases copied hstep with
          ⟨data, _, _, _, _, ⟨_, _, hrest, hinput⟩ | ⟨_, _, hrest, hinput, _⟩⟩
        · rw [hinput]
          refine advance_inBounds hbounds ?_
          rw [hrest, List.length_append, List.length_cons]
          omega
        · rw [hinput]
          refine advance_inBounds hbounds ?_
          rw [hrest, List.length_append]
          omega
  written hs hbounds hroom hstep houtcome :=
    (copier_honest.step hs hbounds hroom hstep houtcome).bounds
  count hs hbounds hroom hstep houtcome :=
    (copier_honest.step hs hbounds hroom hstep houtcome).count

/-- Two members in one push, a position in the middle of a buffer, and a reader that fails. -/
theorem nothing_out_of_bounds_copier : Reachable (idle copier ()) ∧
    (∀ e call, Made 9 (idle copier ()) [.setMultipleMembers true, .setBufferSize ⟨2, by decide⟩,
      .reset, .push [5, 0, 6, 7, 8] (#[] : Array Chunk), .next ⟨[9, 9, 0], 1⟩,
      .readAll ⟨[.data [4], .fail ⟨.other, "gone"⟩]⟩ #[], .release] e call → call.Sound e) ∧
    ∃ rs, reports 9 (idle copier ()) [.setMultipleMembers true, .setBufferSize ⟨2, by decide⟩,
      .reset, .push [5, 0, 6, 7, 8] (#[] : Array Chunk), .next ⟨[9, 9, 0], 1⟩,
      .readAll ⟨[.data [4], .fail ⟨.other, "gone"⟩]⟩ #[], .release] = .ok rs := by
  have hcalls : ∀ call ∈ ([.setMultipleMembers true, .setBufferSize ⟨2, by decide⟩,
      .reset, .push [5, 0, 6, 7, 8] (#[] : Array Chunk), .next ⟨[9, 9, 0], 1⟩,
      .readAll ⟨[.data [4], .fail ⟨.other, "gone"⟩]⟩ #[], .release] :
      List (Call (Array Chunk))), call.InBounds := by
    intro call hmem
    simp only [List.mem_cons, List.not_mem_nil, or_false] at hmem
    rcases hmem with rfl | rfl | rfl | rfl | rfl | rfl | rfl
    · exact trivial
    · exact trivial
    · exact trivial
    · exact trivial
    · exact (by decide : 1 ≤ 3)
    · exact trivial
    · exact trivial
  exact ⟨.idle (), (nothing_out_of_bounds copier_contract (.idle ()) hcalls).1, _, rfl⟩

end Decompression
