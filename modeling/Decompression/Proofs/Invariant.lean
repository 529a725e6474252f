import Decompression.Proofs.History

/-!
# Invariants of a Decoder

Everything that a call does to its decoder is done by attempts and by resets, so a property
that these keep up is one that the call keeps up: this is `Kept`, and `Enduring` adds the
settings and the release. That calls keep such a property, and with them whole histories, is
proved here once for all of them.

An attempt in turn changes the session by starting one, running it, or ending it, and the
offset by adding to it. `Invariant` says of a property that none of these changes can break
it, and `Lasting` that no setting and no release can either. Both are checked one change at a
time, without a look at the loops. A property of the offset needs to know by how much it is
moved, and that is to be seen from the whole attempt only.

A session that fails is given back to the decoder and is then replaced, so a property need
not hold in between.

## Main definitions

* `Kept`, `Enduring`: A property that attempts keep up, and one that every call keeps up.
* `Invariant`, `Lasting`: The same, change by change.
* `Decoder.Live`: The session has been started, and has not failed since.

## Theorems

* `Kept.step`, `Kept.push`, `Kept.readAll`, `Kept.run`: Calls keep it up.
* `Enduring.run`, `Enduring.history`, `Enduring.reachable`: So does everything else.
* `live_lasting`: The sessions of a decoder are those that successful steps lead to.
-/

namespace Decompression

open Decoder Loop

variable {S M : Type} {c : Codec S M}

/-! ## Whole calls -/

/-- What a reset keeps up holds of what becomes of the answer of a step. -/
theorem takeProgress_all {σ : Type} [Sink σ] {I : Decoder c → Prop}
    (hreset : ∀ {d : Decoder c}, I d → I d.reset.decoder) (events : List Event)
    {turn : Turn c Cursor σ Progress} (ht : I turn.decoder) :
    (takeProgress events turn).All (fun next => I next.decoder) fun turn' => I turn'.decoder := by
  have hdeliver : ∀ (last : Bool) (chunk : Chunk), (deliverThen last events chunk turn.toScene).All
      (fun next => I next.decoder) fun turn' => I turn'.decoder := by
    intro last chunk
    rcases hpush : Sink.push turn.sink chunk with ⟨cause | taken, sink⟩
    · rw [deliverThen_of_error hpush]
      exact hreset ht
    · rw [deliverThen_of_ok hpush]
      cases last <;> exact ht
  rcases turn with ⟨w, error | chunk | last | _⟩
  · exact ht
  · exact hdeliver false chunk
  · cases last with
    | none => exact ht
    | some chunk => exact hdeliver true chunk
  · exact ht

/-- The call is neither a setting nor a release. -/
def Call.decodes {σ : Type} : Call σ → Bool
  | .release | .setBufferSize _ | .setMultipleMembers _ => false
  | .push _ _ | .next _ | .readAll _ _ | .finish | .reset => true

/-- A property of decoders that attempts and resets keep up. Whole calls keep it up then. -/
structure Kept (I : Decoder c → Prop) : Prop where
  reset : ∀ {d : Decoder c}, I d → I d.reset.decoder
  attempt : ∀ {σ : Type} {alloc : Allocator σ} {w : Scene c Cursor σ}
    {r : Round Event (Scene c Cursor σ) (Turn c Cursor σ Progress)}, w.decoder.session ≠ none →
    I w.decoder → Decoder.attempt alloc w = .ok r →
    r.All (fun next => I next.decoder) fun turn => I turn.decoder

namespace Kept

variable {I : Decoder c → Prop} {d : Decoder c} {σ : Type}

theorem finish (h : Kept I) (hd : I d) : I d.finish.decoder := by
  cases hpending : d.isPending with
  | true =>
      rw [finish_of_pending hpending]
      exact h.reset hd
  | false =>
      rw [finish_of_not_pending hpending]
      exact hd

theorem step (h : Kept I) {alloc : Allocator σ} {fuel : Nat} {w : Scene c Cursor σ}
    (hw : I w.decoder) {r : Logged Event (Turn c Cursor σ Progress)}
    (hr : Decoder.step fuel alloc w = .ok r) : I r.result.decoder := by
  unfold Decoder.step at hr
  by_cases hready : w.decoder.isReady = true
  case neg =>
    rw [if_neg hready] at hr
    cases hr
    exact hw
  rw [if_pos hready] at hr
  -- There is a session in every round.
  refine run_all (I := fun w => w.decoder.session ≠ none ∧ I w.decoder)
    (Q := fun turn => I turn.decoder) (fun w r hw hround => ?_) ⟨isReady_iff.mp hready, hw⟩ hr
  have hall := h.attempt hw.1 hw.2 hround
  cases r with
  | again events next => exact ⟨attempt_ready hw.1 hround, hall⟩
  | done events turn => exact hall

variable [Sink σ]

theorem takeProgress (h : Kept I) (events : List Event) {turn : Turn c Cursor σ Progress}
    (ht : I turn.decoder) :
    (Decoder.takeProgress events turn).All (fun next => I next.decoder)
      fun turn' => I turn'.decoder :=
  takeProgress_all h.reset events ht

/-- So does a round of a push. -/
theorem drive (h : Kept I) {w : Scene c Cursor σ} (hready : w.decoder.session ≠ none)
    (hw : I w.decoder) {r : PushRound c σ} (hr : Decoder.drive w = .ok r) :
    r.All (fun next => I next.decoder) fun turn => I turn.decoder := by
  rcases drive_cases hr with ⟨events, next, hattempt, rfl⟩ | ⟨events, turn, hattempt, rfl⟩
  · exact h.attempt hready hw hattempt
  · exact h.takeProgress events (h.attempt hready hw hattempt)

/-- A push keeps the property up. -/
theorem push (h : Kept I) {fuel : Nat} {w : Scene c Cursor σ} (hw : I w.decoder)
    {r : Logged Event (Turn c Cursor σ Bool)} (hr : pushCursor fuel w = .ok r) :
    I r.result.decoder := by
  refine run_all (I := fun w => I w.decoder) (Q := fun turn => I turn.decoder)
    (fun w r hw hround => ?_) hw hr
  rw [pushRound_eq] at hround
  rcases map_eq_ok hround with ⟨q, hstep, rfl⟩
  exact h.takeProgress q.events (h.step hw hstep)

theorem readRound (h : Kept I) {fuel : Nat} {w : Scene c Reader σ} (hw : I w.decoder)
    {r : ReadRound c σ} (hr : Decoder.readRound fuel w = .ok r) :
    r.All (fun next => I next.decoder) fun turn => I turn.decoder := by
  have hpulled := pulled_of_readRound hr
  cases hpulled with
  | interrupted _ _ => exact hw
  | failed _ _ => exact h.reset hw
  | exhausted _ => exact h.finish hw
  | @broken d _ sink buffer _ _ _ _ hpush _ => exact h.push (w := ⟨d, .ofBytes buffer, sink⟩) hw hpush
  | @ended d _ sink buffer _ _ _ hpush _ _ => exact h.push (w := ⟨d, .ofBytes buffer, sink⟩) hw hpush
  | @onward d _ sink buffer _ _ _ _ hpush _ _ =>
      exact h.push (w := ⟨d, .ofBytes buffer, sink⟩) hw hpush

/-- Decoding from a reader keeps the property up. -/
theorem readAll (h : Kept I) {fuel : Nat} {reader : Reader} {sink : σ} (hd : I d)
    {r : Logged Event (Turn c Reader σ Unit)} (hr : d.readAll fuel reader sink = .ok r) :
    I r.result.decoder :=
  run_all (I := fun w : Scene c Reader σ => I w.decoder) (Q := fun turn => I turn.decoder)
    (fun _ _ hw hround => h.readRound hw hround) hd hr

/-- So does every call but a setting or a release. -/
theorem run (h : Kept I) {fuel : Nat} {call : Call σ} (hdecodes : call.decodes = true)
    {r : Record c} (hd : I d) (hr : call.run fuel d = .ok r) : I r.after := by
  cases call with
  | push input sink =>
      rcases map_eq_ok hr with ⟨q, hpush, rfl⟩
      exact h.push (w := ⟨d, .ofBytes input, Recorder.ofSink sink⟩) hd hpush
  | next input =>
      rcases map_eq_ok hr with ⟨q, hnext, rfl⟩
      exact h.step (w := ⟨d, input, ()⟩) hd hnext
  | readAll reader sink =>
      rcases map_eq_ok hr with ⟨q, hread, rfl⟩
      exact h.readAll hd hread
  | finish =>
      cases hr
      exact h.finish hd
  | reset =>
      cases hr
      exact h.reset hd
  | release => cases hdecodes
  | setBufferSize size => cases hdecodes
  | setMultipleMembers multiple => cases hdecodes

end Kept

/-- A property of decoders that settings and releases keep up, too. -/
structure Enduring (I : Decoder c → Prop) : Prop extends Kept I where
  ended : ∀ {d : Decoder c}, I d → I d.endSession
  resized : ∀ {d : Decoder c} (size : BufferSize), I d → I { d with bufferSize := size }
  configured : ∀ {d : Decoder c} (multiple : Bool), I d →
    I { d with multipleMembers := multiple }

namespace Enduring

variable {I : Decoder c → Prop} {d : Decoder c} {σ : Type} [Sink σ]

/-- Every call keeps an enduring property up. -/
theorem run (h : Enduring I) {fuel : Nat} {call : Call σ} {r : Record c} (hd : I d)
    (hr : call.run fuel d = .ok r) : I r.after := by
  cases call with
  | release =>
      cases hr
      exact h.ended hd
  | setBufferSize size =>
      cases hr
      exact h.resized size hd
  | setMultipleMembers multiple =>
      cases hr
      exact h.configured multiple hd
  | _ => exact h.toKept.run rfl hd hr

/-- An enduring property holds before and after every call of a history. -/
theorem history (h : Enduring I) {fuel : Nat} {calls : List (Call σ)} (hd : I d)
    {records : List (Record c)} (hr : Decompression.history fuel d calls = .ok records) :
    ∀ r ∈ records, I r.before ∧ I r.after := by
  induction calls generalizing d records with
  | nil =>
      cases hr
      intro r hmem
      cases hmem
  | cons call rest ih =>
      rcases history_cons_ok hr with ⟨r, later, hrun, hrest, rfl⟩
      have hafter := h.run hd hrun
      intro r' hmem
      rcases List.mem_cons.mp hmem with rfl | hmem
      · exact ⟨run_before hrun ▸ hd, hafter⟩
      · exact ih hafter hrest r' hmem

omit [Sink σ] in
theorem reachable (h : Enduring I) (hidle : ∀ memory, I (idle c memory)) (hd : Reachable d) :
    I d := by
  induction hd with
  | idle memory => exact hidle memory
  | call _ hrun ih => exact h.run ih hrun

end Enduring

/-! ## Single changes -/

/-- A property of decoders that decoding keeps up, change by change. -/
structure Invariant (I : Decoder c → Prop) : Prop where
  -- A session is started in place of the last one
  started : ∀ {d : Decoder c} {s : S} {memory : M} (offset : Nat), I d →
    c.start d.retire = (.ok s, memory) → I (d.startedAt offset s memory)
  -- No session could be started
  refused : ∀ {d : Decoder c} {cause : IoError} {memory : M} (offset : Nat), I d →
    c.start d.retire = (.error cause, memory) → I (d.refusedAt offset memory)
  -- The session is run
  stepped : ∀ {d : Decoder c} {s : S} {input : Cursor} {buffer : List UInt8}
    {stepped : Stepped S} {status : Status}, I d → d.session = some s → input.InBounds →
    buffer ≠ [] → c.step s input (.ofBytes buffer) = stepped → stepped.outcome = .ok status →
    I (d.afterStep input stepped status)
  -- The session fails and is replaced
  failed : ∀ {d : Decoder c} {s : S} {input : Cursor} {buffer : List UInt8}
    {stepped : Stepped S} {error : StepError}, I d → d.session = some s → input.InBounds →
    buffer ≠ [] → c.step s input (.ofBytes buffer) = stepped → stepped.outcome = .error error →
    I (d.returnSession stepped.session input stepped.input).reset.decoder
  -- A chunk is handed out
  moved : ∀ {d : Decoder c} (offset : Nat), I d → I { d with outputOffset := offset }

/-- A property of decoders that every call keeps up. -/
structure Lasting (I : Decoder c → Prop) : Prop extends Invariant I where
  ended : ∀ {d : Decoder c}, I d → I d.endSession
  resized : ∀ {d : Decoder c} (size : BufferSize), I d → I { d with bufferSize := size }
  configured : ∀ {d : Decoder c} (multiple : Bool), I d →
    I { d with multipleMembers := multiple }

namespace Invariant

variable {I : Decoder c → Prop} {d : Decoder c} {σ : Type}

theorem reset (h : Invariant I) (hd : I d) : I d.reset.decoder := by
  rcases reset_cases d with ⟨s, memory, hstart, hreset⟩ | ⟨cause, memory, hstart, hreset⟩
  · rw [hreset]
    exact h.started 0 hd hstart
  · rw [hreset]
    exact h.refused 0 hd hstart

theorem entered (h : Invariant I) {input : Cursor} {events : List Event} {entered : Decoder c}
    (he : Entered d input events entered) (hd : I d) : I entered := by
  cases he with
  | stay _ => exact hd
  | member _ _ _ hstart => exact h.started d.outputOffset hd hstart

theorem ran (h : Invariant I) {alloc : Allocator σ} {input : Cursor} {sink served : σ}
    {events : List Event} {entered : Decoder c} {s : S} {buffer : List UInt8}
    {stepped : Stepped S} {status : Status}
    (hran : Ran alloc d input sink events entered s buffer served stepped)
    (houtcome : stepped.outcome = .ok status) (hd : I d) :
    I (entered.afterStep input stepped status) :=
  h.stepped (h.entered hran.enter hd) hran.session hran.bounds hran.room hran.step houtcome

/-- An attempt keeps an invariant up, and whatever comes after it. -/
theorem attempt (h : Invariant I) {alloc : Allocator σ} {w : Scene c Cursor σ}
    (hready : w.decoder.session ≠ none) (hw : I w.decoder)
    {r : Round Event (Scene c Cursor σ) (Turn c Cursor σ Progress)}
    (hr : Decoder.attempt alloc w = .ok r) :
    r.All (fun next => I next.decoder) fun turn => I turn.decoder := by
  have hcases := attempted_of_eq hready hr
  cases hcases with
  | spent _ _ => exact hw
  | refused _ _ _ hstart => exact h.refused _ hw hstart
  | unserved henter _ => exact h.reset (h.entered henter hw)
  | failed hran _ houtcome =>
      exact h.failed (h.entered hran.enter hw) hran.session hran.bounds hran.room hran.step houtcome
  | starved hran _ houtcome _ _ => exact h.ran hran houtcome hw
  | passed hran _ houtcome _ _ _ => exact h.ran hran houtcome hw
  | closed hran _ houtcome _ _ _ => exact h.ran hran houtcome hw
  | filled hran _ houtcome _ _ _ _ => exact h.moved _ (h.ran hran houtcome hw)

/-- Attempts and resets keep it up, and so do whole calls. -/
theorem kept (h : Invariant I) : Kept I where
  reset := h.reset
  attempt hready hw hr := h.attempt hready hw hr

theorem push (h : Invariant I) [Sink σ] {fuel : Nat} {w : Scene c Cursor σ} (hw : I w.decoder)
    {r : Logged Event (Turn c Cursor σ Bool)} (hr : pushCursor fuel w = .ok r) :
    I r.result.decoder :=
  h.kept.push hw hr

/-- Every call but a setting or a release keeps an invariant up. -/
theorem run (h : Invariant I) [Sink σ] {fuel : Nat} {call : Call σ} (hdecodes : call.decodes = true)
    {r : Record c} (hd : I d) (hr : call.run fuel d = .ok r) : I r.after :=
  h.kept.run hdecodes hd hr

end Invariant

namespace Lasting

variable {I : Decoder c → Prop} {d : Decoder c} {σ : Type}

theorem enduring (h : Lasting I) : Enduring I where
  toKept := h.kept
  ended := h.ended
  resized := h.resized
  configured := h.configured

/-- A lasting property holds before and after every call of a history. -/
theorem history [Sink σ] (h : Lasting I) {fuel : Nat} {calls : List (Call σ)} (hd : I d)
    {records : List (Record c)} (hr : Decompression.history fuel d calls = .ok records) :
    ∀ r ∈ records, I r.before ∧ I r.after :=
  h.enduring.history hd hr

theorem reachable (h : Lasting I) (hidle : ∀ memory, I (idle c memory)) (hd : Reachable d) : I d :=
  h.enduring.reachable hidle hd

end Lasting

/-! ## Sessions that were started and stepped -/

/-- The session has been started, and has not failed since. -/
def Decoder.Live (d : Decoder c) : Prop :=
  ∀ s, d.session = some s → c.Reached s

theorem live_started (d : Decoder c) (offset : Nat) {s : S} {memory memory' : M}
    (hstart : c.start memory = (.ok s, memory')) : (d.startedAt offset s memory').Live := by
  intro s' hs'
  cases hs'
  exact .fresh hstart

theorem live_refused (d : Decoder c) (offset : Nat) (memory : M) :
    (d.refusedAt offset memory).Live := by
  intro s hs
  cases hs

/-- The sessions of a decoder are those that successful steps lead to. -/
theorem live_lasting : Lasting (Live (c := c)) where
  started offset _ hstart := live_started _ offset hstart
  refused offset _ _ := live_refused _ offset _
  stepped := by
    intro d s input buffer stepped status hd hs hbounds hroom hstep houtcome s' hs'
    rw [afterStep_session] at hs'
    cases hs'
    exact .step (hd s hs) hbounds hroom hstep houtcome
  failed := by
    intro d s input buffer stepped error _ _ _ _ _ _
    rcases reset_cases (d.returnSession stepped.session input stepped.input) with
      ⟨s', memory, hstart, hreset⟩ | ⟨cause, memory, _, hreset⟩
    · rw [hreset]
      exact live_started _ 0 hstart
    · rw [hreset]
      exact live_refused _ 0 memory
  moved _ hd := hd
  ended := by
    intro d _ s hs
    rw [endSession_eq] at hs
    cases hs
  resized _ hd := hd
  configured _ hd := hd

theorem Decoder.Reachable.live {d : Decoder c} (h : Reachable d) : d.Live := by
  refine live_lasting.reachable (fun memory s hs => ?_) h
  cases hs

end Decompression
