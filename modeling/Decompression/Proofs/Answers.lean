import Decompression.Proofs.Chronicle
import Decompression.Proofs.Termination

/-!
# What a Push Answers

A push that does not fail answers whether the stream is over. The answer comes from three
places, after a chunk, after a step that wrote nothing, and before any step, and in all of
them it has to be right: a stream that is said to be over is, and one that is not over waits
for more. No input is dropped in either case, unless it comes after a single stream.

A codec is candid if a session that has read everything without having anything to write goes
on waiting when it is given nothing, and if a session that has come to an end never goes back
on it. The second condition is what makes the answer agree with the flag: with a single
stream, a decoder that has met the end still hands further input to the session.

That it does so only if a push begins there is read off the chronicle. In a push that begins
within a single stream, the step that meets the end is the last one.

## Main definitions

* `Codec.Candid`: A session that waits goes on waiting, and the end of a stream is final.
* `Decoder.Waiting`: Pushing nothing has no effect.
* `Truthful`: The answer of a push is right, and no input is dropped.
* `LastIfEnd`: Nothing was done after the end of a stream.

## Theorems

* `push_truthful`: The answer of a push is right.
* `stepped_once`: A round of a push makes one step at most.
* `push_stops`: In a single stream, the step that meets the end is the last one of a push.
* `truthful_and_last`: Both, for every reachable decoder.
-/

namespace Decompression

open Decoder Loop

variable {S M : Type} {c : Codec S M}

/-! ## Candid codecs -/

/-- The session has neither read nor written anything, and goes on. -/
structure Stepped.Waits (stepped : Stepped S) : Prop where
  outcome : stepped.outcome = .ok .progress
  read : stepped.input.InBounds
  written : stepped.output.InBounds
  nothing : stepped.output.front = []

/-- A session that waits has read everything, and goes on waiting if there is nothing to read; and
    a session that has come to the end of its stream never goes on. -/
structure Codec.Candid (c : Codec S M) : Prop extends c.Thorough where
  waits : ∀ {s : S} {input : Cursor} {buffer : List UInt8} {stepped : Stepped S},
    c.Reached s → input.InBounds → buffer ≠ [] → c.step s input (.ofBytes buffer) = stepped →
    stepped.outcome = .ok .progress → stepped.output.front = [] →
    ∀ {room : List UInt8}, room ≠ [] →
      (c.step stepped.session (.ofBytes []) (.ofBytes room)).Waits
  stays : ∀ {s : S} {u v : List UInt8} {input : Cursor} {buffer : List UInt8},
    Decoded c s u v true → input.InBounds → buffer ≠ [] →
    (c.step s input (.ofBytes buffer)).outcome ≠ .ok .progress

/-! ## What is answered -/

/-- Pushing nothing is answered as if it had not been done: the stream goes on, no chunk is handed
    over, and only the session may have changed. -/
def Decoder.Waiting (d : Decoder c) : Prop :=
  ∀ {τ : Type} [Sink τ], Accepting τ → ∀ sink : τ, ∃ s served, Recorder.handed served = [] ∧
    Settles (fun fuel => d.push fuel [] (Recorder.ofSink sink))
      (.ok ⟨[], ⟨⟨{ d with session := some s }, .ofBytes [], served⟩, .ok false⟩⟩)

/-- What an answer of a push says. -/
structure Truthful {σ : Type} (d : Decoder c) (x : List UInt8) (turn : Turn c Cursor σ Bool) :
    Prop where
  -- The stream is over, and nothing is left if it might have had further members
  ended : turn.result = .ok true → turn.decoder.finished = true ∧
    (d.multipleMembers = true → turn.input = ⟨x, x.length⟩)
  -- The stream goes on, and there is nothing left to be read or written
  goesOn : turn.result = .ok false → turn.decoder.finished = false ∧
    turn.input = ⟨x, x.length⟩ ∧ turn.decoder.Waiting

section Answers

variable {σ : Type} [Sink σ]

-- A position that nothing is left after is the end.
theorem Cursor.eq_atEnd {input : Cursor} {x : List UInt8} (hbytes : input.bytes = x)
    (hbounds : input.InBounds) (hrest : input.rest = []) : input = ⟨x, x.length⟩ := by
  subst hbytes
  have hle : input.bytes.length ≤ input.index := List.drop_eq_nil_iff.mp hrest
  rw [← Nat.le_antisymm hbounds hle]

omit [Sink σ] in
theorem Drained.atEnd {d : Decoder c} {buffer : List UInt8} {turn : Turn c Cursor σ Bool}
    {ended : Bool} (h : Drained d buffer turn ended)
    (hwhole : ended = false ∨ d.multipleMembers = true) : turn.input = ⟨buffer, buffer.length⟩ :=
  Cursor.eq_atEnd h.bytes h.bounds (h.rest hwhole)

-- A session that goes on has not come to an end.
omit [Sink σ] in
theorem Went.unfinished (hc : c.Candid) {alloc : Allocator σ} {d entered : Decoder c}
    {input : Cursor} {sink served : σ} {events : List Event} {s : S} {buffer : List UInt8}
    {stepped : Stepped S}
    (h : Went alloc d input sink events entered s buffer served stepped .progress)
    (hd : d.Traced) : entered.finished = false := by
  rcases traced_lasting.entered h.ran.enter hd s h.ran.session with ⟨u, v, hdecoded, _⟩
  refine Bool.eq_false_iff.mpr fun hfinished => ?_
  rw [hfinished] at hdecoded
  have houtcome := h.outcome
  rw [← h.ran.step] at houtcome
  exact hc.stays hdecoded h.ran.bounds h.ran.room houtcome

/-- A session that has nothing to read and nothing to write waits. -/
theorem waiting_of_waits (hc : c.Thorough) {d : Decoder c} (hlive : d.Live)
    (hunfinished : d.finished = false) {s : S} (hs : d.session = some s)
    (hwaits : ∀ {room : List UInt8}, room ≠ [] → (c.step s (.ofBytes []) (.ofBytes room)).Waits) :
    d.Waiting := by
  intro τ _ haccepting sink
  rcases (Recorder.accepting haccepting).alloc (.ofSink sink) d.outputOffset d.bufferSize.toNat with
    ⟨buffer, served, hserve, hsize⟩
  have hroom : buffer ≠ [] := List.ne_nil_of_length_pos (hsize ▸ d.bufferSize.pos)
  rcases hstep : c.step s (.ofBytes []) (.ofBytes buffer) with ⟨s', input, output, outcome⟩
  have hstill := hwaits hroom
  rw [hstep] at hstill
  have hran : Ran Sink.alloc d (.ofBytes []) (Recorder.ofSink sink) [] d s buffer served
      ⟨s', input, output, outcome⟩ :=
    ⟨.stay fun hf => Bool.noConfusion (hunfinished.symm.trans hf), hs, hserve, hsize,
      Nat.zero_le _, hstep⟩
  have hgoes : Goes ⟨d, .ofBytes [], Recorder.ofSink sink⟩ _ :=
    .starved ⟨hran, hstill.read, hstill.outcome, hstill.written⟩ hstill.nothing
  -- Nothing has been read, as there was nothing.
  have hbytes : input.bytes = [] :=
    hc.keeps (hlive s hs) (Nat.zero_le _) hroom hstep hstill.outcome
  have hrest : input.rest = [] := by
    rw [Cursor.rest, hbytes, List.drop_nil]
  have hinput : input = .ofBytes [] := Cursor.eq_atEnd hbytes hstill.read hrest
  subst hinput
  have hafter : d.afterStep (.ofBytes []) ⟨s', .ofBytes [], output, outcome⟩ .progress =
      { d with session := some s' } := by
    change { d with session := some s', consumed := d.consumed || false } = _
    rw [Bool.or_false]
  refine ⟨s', served, (Recorder.handed_alloc hserve).trans rfl, ?_⟩
  refine (settles_push_iff (hs ▸ Option.some_ne_none s)).mpr (.done ?_)
  rw [hafter] at hgoes
  exact settles_drive hgoes (Nat.zero_le _)

-- A round that the push ends with.
theorem Goes.truthful (hc : c.Candid) {w : Scene c Cursor σ} {events : List Event}
    {turn : Turn c Cursor σ Bool} (h : Goes w (.done events turn)) (hw : w.decoder.Traced)
    (hresult : turn.result = .ok false) :
    turn.decoder.finished = false ∧ turn.decoder.Waiting := by
  cases h with
  | spent _ _ => cases hresult
  | @starved _ entered s _ _ stepped went hnothing =>
      have hunfinished := went.unfinished hc hw
      have hreached := live_lasting.entered went.ran.enter hw.live s went.ran.session
      have hlive : (entered.afterStep w.input stepped .progress).Live :=
        live_lasting.ran went.ran went.outcome hw.live
      refine ⟨hunfinished, waiting_of_waits hc.toThorough hlive hunfinished afterStep_session ?_⟩
      exact hc.waits hreached went.ran.bounds went.ran.room went.ran.step went.outcome hnothing
  | closed _ _ _ => cases hresult
  | ended _ _ _ _ _ _ => cases hresult

/-- The answer of a push is right. -/
theorem push_truthful (hc : c.Candid) {d : Decoder c} (hd : d.Traced) {fuel : Nat} {x : List UInt8}
    {sink : σ} {r : Logged Event (Turn c Cursor σ Bool)} (h : d.push fuel x sink = .ok r) :
    Truthful d x r.result where
  ended hresult := by
    have hdrained := push_drained hc.toThorough hd.live h hresult
    exact ⟨hdrained.finished rfl, fun hmultiple => hdrained.atEnd (Or.inr hmultiple)⟩
  goesOn hresult := by
    have hdrained := push_drained hc.toThorough hd.live h hresult
    have hready : d.session ≠ none := ready_of_push h hresult
    rcases (ends_of_push hready h).last with ⟨earlier, w, events, hleads, hlast, _⟩
    have hw : w.decoder.session ≠ none ∧ w.decoder.Traced :=
      hleads.keeps (I := fun w => w.decoder.session ≠ none ∧ w.decoder.Traced)
        (fun hw hround => ⟨drive_ready hw.1 hround.of_const,
          traced_lasting.kept.drive hw.1 hw.2 hround.of_const⟩) ⟨hready, hd⟩
    have hgoes := goes_of_settles hw.1 hlast fun events turn hround => by
      cases hround
      exact ⟨false, hresult⟩
    rcases hgoes.truthful hc hw.2 hresult with ⟨hunfinished, hwaiting⟩
    exact ⟨hunfinished, hdrained.atEnd (Or.inl rfl), hwaiting⟩

end Answers

/-! ## The last step of a push -/

/-- All but the last of these steps have not met the end of a stream. -/
def LastIfEnd (deeds : List Deed) : Prop :=
  ∀ deed ∈ deeds.dropLast, deed.outcome ≠ .ok .streamEnd

/-- From one decoder to the other at most one step was made. -/
inductive Decoder.StepsOnce (d e : Decoder c.chronicled) : Prop
  | none (same : e.chronicle = d.chronicle)
  | one {deed : Deed} (further : e.chronicle = d.chronicle ++ [deed])

section Rounds

variable {σ : Type} {d e : Decoder c.chronicled}

theorem chronicle_entered {input : Cursor} {events : List Event} {entered : Decoder c.chronicled}
    (h : Entered d input events entered) : entered.chronicle = d.chronicle := by
  cases h with
  | stay _ => rfl
  | member _ _ _ hstart => exact chronicle_startedAt d d.outputOffset hstart

-- What is handed out is not a step.
theorem chronicle_moved (d : Decoder c.chronicled) (offset : Nat) :
    ({ d with outputOffset := offset } : Decoder c.chronicled).chronicle = d.chronicle := by
  rw [chronicle_eq, chronicle_eq d]
  rfl

section Ran

variable {alloc : Allocator σ} {input : Cursor} {sink served : σ} {events : List Event}
  {entered : Decoder c.chronicled} {s : S × List Deed} {buffer : List UInt8}
  {stepped : Stepped (S × List Deed)}

theorem Ran.chronicle (h : Ran alloc d input sink events entered s buffer served stepped)
    (status : Status) :
    (entered.afterStep input stepped status).chronicle =
      d.chronicle ++ [.ofStep input stepped] := by
  rw [chronicle_afterStep h.session h.step, chronicle_entered h.enter]

theorem Ran.chronicle_failed
    (h : Ran alloc d input sink events entered s buffer served stepped) :
    (entered.returnSession stepped.session input stepped.input).reset.decoder.chronicle =
      d.chronicle ++ [.ofStep input stepped] := by
  rw [chronicle_reset, chronicle_returnSession h.session h.step, chronicle_entered h.enter]

end Ran

/-- An attempt makes one step at most. -/
theorem attempt_stepsOnce {alloc : Allocator σ} {w : Scene c.chronicled Cursor σ}
    (hready : w.decoder.session ≠ none)
    {r : Round Event (Scene c.chronicled Cursor σ) (Turn c.chronicled Cursor σ Progress)}
    (h : attempt alloc w = .ok r) :
    r.All (fun next => w.decoder.StepsOnce next.decoder)
      fun turn => w.decoder.StepsOnce turn.decoder := by
  have hcases := attempted_of_eq hready h
  cases hcases with
  | spent _ _ => exact .none rfl
  | refused _ _ _ hstart => exact .none (chronicle_refusedAt _ _ hstart)
  | unserved henter _ =>
      exact .none ((chronicle_reset _).trans (chronicle_entered henter))
  | failed hran _ _ => exact .one hran.chronicle_failed
  | starved hran _ _ _ _ => exact .one (hran.chronicle .progress)
  | passed hran _ _ _ _ _ => exact .one (hran.chronicle .streamEnd)
  | closed hran _ _ _ _ _ => exact .one (hran.chronicle .streamEnd)
  | filled hran _ _ _ _ _ _ => exact .one ((chronicle_moved _ _).trans (hran.chronicle _))

-- A reset is not a step.
theorem Decoder.StepsOnce.reset (h : d.StepsOnce e) : d.StepsOnce e.reset.decoder := by
  cases h with
  | none same => exact .none ((chronicle_reset e).trans same)
  | one further => exact .one ((chronicle_reset e).trans further)

variable [Sink σ]

/-- A round of a push makes one step at most. -/
theorem stepped_once {w : Scene c.chronicled Cursor σ} (hready : w.decoder.session ≠ none)
    {r : PushRound c.chronicled σ} (h : drive w = .ok r) :
    r.All (fun next => w.decoder.StepsOnce next.decoder)
      fun turn => w.decoder.StepsOnce turn.decoder := by
  rcases drive_cases h with ⟨events, next, hattempt, rfl⟩ | ⟨events, turn, hattempt, rfl⟩
  · exact attempt_stepsOnce hready hattempt
  · exact takeProgress_all StepsOnce.reset events (attempt_stepsOnce hready hattempt)

/-- A push has come so far within a single stream. -/
structure WithinStream (d : Decoder c.chronicled) (w : Scene c.chronicled Cursor σ)
    (steps : List Deed) : Prop where
  ready : w.decoder.session ≠ none
  single : w.decoder.multipleMembers = false
  unfinished : w.decoder.finished = false
  flagged : w.decoder.Flagged
  -- The session is the one that the push began with
  deeds : w.decoder.deeds = d.deeds ++ steps
  chronicle : w.decoder.chronicle = d.chronicle ++ steps

omit [Sink σ] in
-- No step has met the end so far.
theorem WithinStream.goesOn {w : Scene c.chronicled Cursor σ} {steps : List Deed}
    (h : WithinStream d w steps) {deed : Deed} (hmem : deed ∈ d.deeds ++ steps) :
    deed.outcome ≠ .ok .streamEnd := by
  intro hended
  have hfinished := (h.flagged h.ready).2.mpr ⟨deed, h.deeds ▸ hmem, hended⟩
  exact Bool.noConfusion (h.unfinished.symm.trans hfinished)

theorem WithinStream.again {w next : Scene c.chronicled Cursor σ} {steps : List Deed}
    (h : WithinStream d w steps) {events : List Event} (hgoes : Goes w (.again events next)) :
    ∃ deed, WithinStream d next (steps ++ [deed]) := by
  cases hgoes with
  | passed went _ hfurther =>
      -- There are no further members in a single stream.
      have hmultiple := (entered_config went.ran.enter).2.1
      have hseveral := (hasFurtherMember_iff.mp hfurther).1
      exact Bool.noConfusion (h.single.symm.trans (hmultiple.symm.trans hseveral))
  | @filled _ entered s buffer _ _ stepped status went _ _ _ hlast _ =>
      cases entered_self went.ran.enter h.unfinished
      cases status with
      | streamEnd =>
          -- In a single stream a chunk that comes with the end is the last one.
          have hrest : w.decoder.multipleMembers = true → stepped.input.rest = [] := fun hseveral =>
            Bool.noConfusion (h.single.symm.trans hseveral)
          cases (isLast_iff.mpr ⟨rfl, hrest⟩).symm.trans hlast
      | progress =>
          have hflagged := flagged_afterStep h.flagged went.ran.session went.ran.step went.outcome
          refine ⟨.ofStep w.input stepped, ?_, h.single, h.unfinished, hflagged, ?_, ?_⟩
          · exact fun hnone => Option.some_ne_none _ (afterStep_session.symm.trans hnone)
          · rw [← List.append_assoc, ← h.deeds]
            exact deeds_afterStep went.ran.session went.ran.step .progress
          · rw [chronicle_moved, went.ran.chronicle, h.chronicle, List.append_assoc]

/-- In a push that begins within a single stream, the step that meets the end is the last one. -/
theorem push_stops (hsingle : d.multipleMembers = false) (hunfinished : d.finished = false)
    (hd : d.Flagged) (hready : d.session ≠ none) {fuel : Nat} {x : List UInt8} {sink : σ}
    {r : Logged Event (Turn c.chronicled Cursor σ Bool)} (h : d.push fuel x sink = .ok r) :
    ∃ steps, r.result.decoder.chronicle = d.chronicle ++ steps ∧ LastIfEnd (d.deeds ++ steps) := by
  rcases (ends_of_push hready h).last with ⟨earlier, w, events, hleads, hlast, _⟩
  have hwithin : ∃ steps, WithinStream d w steps := by
    refine hleads.keeps (I := fun w => ∃ steps, WithinStream d w steps) (fun hw hround => ?_)
      ⟨[], hready, hsingle, hunfinished, hd, (List.append_nil _).symm, (List.append_nil _).symm⟩
    rcases hw with ⟨steps, hw⟩
    have hgoes := goes_of_settles hw.ready hround fun events turn hr => by cases hr
    rcases hw.again hgoes with ⟨deed, hnext⟩
    exact ⟨steps ++ [deed], hnext⟩
  rcases hwithin with ⟨steps, hwithin⟩
  have honce : w.decoder.StepsOnce r.result.decoder := stepped_once hwithin.ready hlast.of_const
  cases honce with
  | none same =>
      refine ⟨steps, same.trans hwithin.chronicle, fun deed hmem => ?_⟩
      exact hwithin.goesOn (List.dropLast_subset _ hmem)
  | @one deed further =>
      refine ⟨steps ++ [deed], ?_, fun deed' hmem => ?_⟩
      · rw [further, hwithin.chronicle, List.append_assoc]
      · rw [← List.append_assoc, List.dropLast_concat] at hmem
        exact hwithin.goesOn hmem

end Rounds

/-! ## Both -/

section Pushing

variable {σ : Type} [Sink σ]

/-- For every reachable decoder with a session, the answer of a push is right and no input is
    dropped; and a push that begins within a single stream does not step the session any more when
    it has come to the end of the stream. -/
theorem truthful_and_last (hc : c.Candid) {d : Decoder c} (hd : Reachable d)
    (hready : d.isReady = true) {fuel : Nat} {x : List UInt8} {sink : σ}
    {r : Logged Event (Turn c Cursor σ Bool)} (h : d.push fuel x sink = .ok r) :
    Truthful d x r.result ∧
    ∃ e : Decoder c.chronicled, Reachable e ∧ (chronicling c).Shifted 0 e d ∧
      ∃ q, e.push fuel x sink = .ok q ∧ q.result.result = r.result.result ∧
        (chronicling c).Shifted 0 q.result.decoder r.result.decoder ∧
        (d.multipleMembers = false → d.finished = false →
          ∃ steps, q.result.decoder.chronicle = e.chronicle ++ steps ∧
            LastIfEnd (e.deeds ++ steps)) := by
  refine ⟨push_truthful hc hd.traced h, ?_⟩
  rcases reachable_chronicled hd with ⟨e, he, hsame⟩
  have hpush : Agree 0 Logged.events
      (LoggedAlike 0 ((chronicling c).TurnShifted Eq id 0)) (e.push fuel x sink)
      (d.push fuel x sink) :=
    Likeness.push_alike Likeness.serves_eq Likeness.takes_eq fuel ⟨hsame, rfl, rfl⟩
  rw [h] at hpush
  rcases hpush.ok_of_zero with ⟨q, hq, halike⟩
  rcases halike.of_zero (fun _ => rfl) with ⟨hafter, _, hresult⟩
  refine ⟨e, he, hsame, q, hq, hresult, hafter, fun hsingle hunfinished => ?_⟩
  have hsession := isReady_iff.mp (hsame.isReady.trans hready)
  exact push_stops (hsame.multipleMembers.trans hsingle) (hsame.finished.trans hunfinished)
    he.flagged hsession hq

theorem copier_candid : copier.Candid where
  toThorough := copier_thorough
  waits := by
    rintro ⟨total, ended⟩ input buffer stepped _ _ hroom hstep houtcome _ room hroom'
    cases ended with
    | true =>
        subst hstep
        cases houtcome
    | false =>
        have hopen : stepped.session = (stepped.session.1, false) := by
          rcases copied hstep with ⟨_, _, _, _, _, ⟨hended, _⟩ | ⟨_, hopen, _⟩⟩
          · cases houtcome.symm.trans hended
          · rw [← hopen]
        rw [hopen]
        generalize hnext :
          copier.step (stepped.session.1, false) (.ofBytes []) (.ofBytes room) = next
        have hempty : (Cursor.ofBytes []).rest = [] := rfl
        rcases copied hnext with
          ⟨data, _, hwritten, hfront, _, ⟨_, _, hrest, _⟩ | ⟨houtcome', _, hrest, hinput, _⟩⟩
        · rw [hempty, List.nil_eq_append_iff] at hrest
          cases hrest.2
        · rw [hempty, List.nil_eq_append_iff] at hrest
          refine ⟨houtcome', ?_, hwritten, hfront.trans hrest.1⟩
          rw [hinput, hrest.1]
          exact Nat.le_refl _
  stays := by
    intro s u v input buffer hdecoded hbounds hroom houtcome
    cases houtcome.symm.trans (copier_rests hdecoded hbounds hroom).2.1

/-- A push beyond the end of a single stream. -/
theorem truthful_and_last_copier :
    ∃ (r : Logged Event (Turn copier Cursor (Array Chunk) Bool)) (e : Decoder copier.chronicled)
      (q : Logged Event (Turn copier.chronicled Cursor (Array Chunk) Bool)) (steps : List Deed),
    (created copier () ⟨2, by decide⟩ false).push 9 [5, 6, 7, 0, 8] #[] = .ok r ∧
    r.result.result = .ok true ∧ r.result.decoder.finished = true ∧
    (chronicling copier).Shifted 0 e (created copier () ⟨2, by decide⟩ false) ∧
    e.push 9 [5, 6, 7, 0, 8] #[] = .ok q ∧
    q.result.decoder.chronicle = e.chronicle ++ steps ∧ LastIfEnd (e.deeds ++ steps) := by
  have hreturns : ∃ r : Logged Event (Turn copier Cursor (Array Chunk) Bool),
      (created copier () ⟨2, by decide⟩ false).push 9 [5, 6, 7, 0, 8] #[] = .ok r ∧
      r.result.result = .ok true := ⟨_, rfl, rfl⟩
  rcases hreturns with ⟨r, hr, hresult⟩
  rcases truthful_and_last copier_candid (reachable_created () _ _) rfl hr with
    ⟨htruthful, e, _, hsame, q, hq, _, _, hsteps⟩
  rcases hsteps rfl rfl with ⟨steps, hchronicle, hlast⟩
  exact ⟨r, e, q, steps, hr, hresult, (htruthful.ended hresult).1, hsame, hq, hchronicle, hlast⟩

end Pushing

end Decompression
