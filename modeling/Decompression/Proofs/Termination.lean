import Decompression.Proofs.Bounds
import Decompression.Proofs.Reading

/-!
# Pushes and Readings Come to an End

The loops of a decoder have no bound of their own. A step of its session may write without
reading, a member may be over without having written anything, and a further one is started
then, which may do the same. What a push does is bounded by its input all the same, if every
session reads something before it is over, and writes only so much without reading.

The rank of a decoder says what is left to be done. Its first part is the input and one more
if the live session has read something, or is over: that one byte has been paid for already,
when the session that reads it was live in an earlier call. A further member uses it up, and
gets it back when it reads something. The end of a session leaves it as it is, and so the
second part says whether the session is over. The third part is what the codec itself has to
offer.

## Main definitions

* `Codec.Progressing`: What a codec has to keep to.
* `Decoder.Traced`: What the live session has read and written.
* `Decoder.credit`, `Decoder.rank`: What is left to be done.
* `starts`: How many sessions were started.
* `Terminates`: What is to be known about a call.

## Theorems

* `traced_lasting`: A session that has read something is known to have done so.
* `Goes.lowers`: Every round of a push lowers the rank.
* `exists_settles_push`, `exists_settles_step`: A push comes to an end, and so does a step.
* `exists_settles_readAll`: So does decoding from a reader.
* `starts_of_push`: No more sessions are started than there are bytes, and one after a failure.
* `loops_end`: All of it, for every reachable decoder.
-/

namespace Decompression

open Decoder Loop

variable {S M : Type} {c : Codec S M}

/-- Sessions read on from where they are, write only so much without reading, read everything
    before they wait, and are not over before they have read something. -/
structure Codec.Progressing (c : Codec S M) (measure : S → List UInt8 → Nat) : Prop
    extends c.Thorough where
  forward : ∀ {s : S} {input : Cursor} {buffer : List UInt8} {stepped : Stepped S}
      {status : Status},
    c.Reached s → input.InBounds → buffer ≠ [] → c.step s input (.ofBytes buffer) = stepped →
    stepped.outcome = .ok status → input.index ≤ stepped.input.index
  lowers : ∀ {s : S} {input : Cursor} {buffer : List UInt8} {stepped : Stepped S},
    c.Reached s → input.InBounds → buffer ≠ [] → c.step s input (.ofBytes buffer) = stepped →
    stepped.outcome = .ok .progress → stepped.output.front ≠ [] →
    measure stepped.session stepped.input.rest < measure s input.rest
  reads : ∀ {s : S} {u v : List UInt8} {ended : Bool} {input : Cursor} {buffer : List UInt8}
    {stepped : Stepped S}, Decoded c s u v ended → input.InBounds → buffer ≠ [] →
    c.step s input (.ofBytes buffer) = stepped → stepped.outcome = .ok .streamEnd →
    u ++ input.between stepped.input ≠ []

/-! ## What the live session has read -/

theorem Decoded.reached {s : S} {u v : List UInt8} {ended : Bool} (h : Decoded c s u v ended) :
    c.Reached s := by
  induction h with
  | fresh hstart => exact .fresh hstart
  | step _ hbounds hroom hstep houtcome ih => exact .step ih hbounds hroom hstep houtcome

/-- The live session has read and written something, and if it has read anything then the decoder
    knows. -/
def Decoder.Traced (d : Decoder c) : Prop :=
  ∀ s, d.session = some s → ∃ u v, Decoded c s u v d.finished ∧ (u ≠ [] → d.consumed = true)

theorem Decoder.Traced.live {d : Decoder c} (h : d.Traced) : d.Live := by
  intro s hs
  rcases h s hs with ⟨u, v, hdecoded, _⟩
  exact hdecoded.reached

theorem traced_started (d : Decoder c) (offset : Nat) {s : S} {memory memory' : M}
    (hstart : c.start memory = (.ok s, memory')) : (d.startedAt offset s memory').Traced := by
  intro s' hs'
  cases hs'
  exact ⟨[], [], .fresh hstart, fun hread => absurd rfl hread⟩

theorem traced_of_none {d : Decoder c} (h : d.session = none) : d.Traced := by
  intro s hs
  rw [h] at hs
  cases hs

theorem index_lt_of_between {before after : Cursor} (h : before.between after ≠ []) :
    before.index < after.index := by
  refine Nat.lt_of_not_le fun hle => h ?_
  rw [Cursor.between, Nat.sub_eq_zero_of_le hle, List.take_zero]

/-- A session that has read something is known to have done so. -/
theorem traced_lasting : Lasting (Traced (c := c)) where
  started offset _ hstart := traced_started _ offset hstart
  refused _ _ _ := traced_of_none rfl
  stepped := by
    intro d s input buffer stepped status hd hs hbounds hroom hstep houtcome s' hs'
    rw [afterStep_session] at hs'
    cases hs'
    rcases hd s hs with ⟨u, v, hdecoded, hconsumed⟩
    have hfinished : (d.afterStep input stepped status).finished =
        (d.finished || decide (status = .streamEnd)) := by
      cases status with
      | progress => exact (Bool.or_false _).symm
      | streamEnd => exact (Bool.or_true _).symm
    have hread : (d.afterStep input stepped status).consumed =
        (d.consumed || decide (input.index < stepped.input.index)) := by
      cases status <;> rfl
    rw [hfinished, hread]
    refine ⟨_, _, hdecoded.step hbounds hroom hstep houtcome, fun hmore => ?_⟩
    by_cases hbefore : u = []
    · have hbetween : input.between stepped.input ≠ [] := fun hc => hmore (by rw [hbefore, hc]; rfl)
      rw [decide_eq_true (index_lt_of_between hbetween), Bool.or_true]
    · rw [hconsumed hbefore, Bool.true_or]
  failed := by
    intro d s input buffer stepped error _ _ _ _ _ _
    rcases reset_cases (d.returnSession stepped.session input stepped.input) with
      ⟨s', memory, hstart, hreset⟩ | ⟨cause, memory, _, hreset⟩
    · rw [hreset]
      exact traced_started _ 0 hstart
    · rw [hreset]
      exact traced_of_none rfl
  moved _ hd := hd
  ended := by
    intro d _
    rw [endSession_eq]
    exact traced_of_none rfl
  resized _ hd := hd
  configured _ hd := hd

theorem Decoder.Reachable.traced {d : Decoder c} (hd : Reachable d) : d.Traced :=
  traced_lasting.reachable (fun _ => traced_of_none rfl) hd

/-! ## What is left to be done -/

/-- How many bytes sessions can still read, with one for a session that has read something. -/
def Decoder.credit (d : Decoder c) (input : Cursor) : Nat :=
  input.rest.length + (d.consumed || d.finished).toNat

theorem credit_le (d : Decoder c) (input : Cursor) : d.credit input - 1 ≤ input.rest.length := by
  have hone := Bool.toNat_le (d.consumed || d.finished)
  unfold Decoder.credit
  omega

/-- What is left to be done: the credit, the end of the session, and what it may still write. -/
def Decoder.rank (measure : S → List UInt8 → Nat) (d : Decoder c) (input : Cursor) :
    Nat × Nat × Nat :=
  (d.credit input, (!d.finished).toNat, d.session.elim 0 fun s => measure s input.rest)

/-- The order of ranks, part by part. -/
def Below : Nat × Nat × Nat → Nat × Nat × Nat → Prop :=
  Prod.Lex (· < ·) (Prod.Lex (· < ·) (· < ·))

theorem below_wellFounded : WellFounded Below :=
  (Prod.lex Nat.lt_wfRel (Prod.lex Nat.lt_wfRel Nat.lt_wfRel)).wf

section Rounds

variable {measure : S → List UInt8 → Nat} {σ : Type} {alloc : Allocator σ} {d entered : Decoder c}
  {input : Cursor} {sink served : σ} {events : List Event} {s : S} {buffer : List UInt8}
  {stepped : Stepped S} {status : Status}

theorem Went.rest_eq (hc : c.Progressing measure)
    (h : Went alloc d input sink events entered s buffer served stepped status) (hd : d.Traced) :
    input.rest = input.between stepped.input ++ stepped.input.rest := by
  have hreached := (traced_lasting.entered h.ran.enter hd).live s h.ran.session
  exact Cursor.rest_eq_between_append (h.keeps hc.toThorough hd.live)
    (hc.forward hreached h.ran.bounds h.ran.room h.ran.step h.outcome)

/-- A step leaves no more credit than there was when the decoder was entered. -/
theorem Went.credit_le (hc : c.Progressing measure)
    (h : Went alloc d input sink events entered s buffer served stepped status) (hd : d.Traced) :
    (entered.afterStep input stepped status).credit stepped.input ≤ entered.credit input := by
  have hrest := congrArg List.length (h.rest_eq hc hd)
  rw [List.length_append] at hrest
  unfold Decoder.credit
  cases status with
  | progress =>
      have hflags : ((entered.afterStep input stepped .progress).consumed ||
          (entered.afterStep input stepped .progress).finished) =
          (decide (input.index < stepped.input.index) || (entered.consumed || entered.finished)) := by
        show (entered.consumed || decide (input.index < stepped.input.index) ||
          entered.finished) = _
        rw [Bool.or_comm entered.consumed, Bool.or_assoc]
      rw [hflags]
      by_cases hmoved : input.index < stepped.input.index
      · have hbetween : input.between stepped.input ≠ [] := fun hc' =>
          (Cursor.between_eq_nil_iff (h.keeps hc.toThorough hd.live) h.read).mp hc' hmoved
        have hpos := List.length_pos_iff.mpr hbetween
        have hflag := Bool.toNat_le (decide (input.index < stepped.input.index) ||
          (entered.consumed || entered.finished))
        omega
      · rw [decide_eq_false hmoved, Bool.false_or]
        omega
  | streamEnd =>
      have hflag : ((entered.afterStep input stepped .streamEnd).consumed ||
          (entered.afterStep input stepped .streamEnd).finished).toNat = 1 := by
        rw [show (entered.afterStep input stepped .streamEnd).finished = true from rfl, Bool.or_true]
        rfl
      rw [hflag]
      -- Something has been read, now or before.
      rcases traced_lasting.entered h.ran.enter hd s h.ran.session with ⟨u, v, hdecoded, hconsumed⟩
      have hread := hc.reads hdecoded h.ran.bounds h.ran.room h.ran.step h.outcome
      by_cases hbefore : u = []
      · have hbetween : input.between stepped.input ≠ [] := by
          rwa [hbefore, List.nil_append] at hread
        have hpos := List.length_pos_iff.mpr hbetween
        omega
      · rw [hconsumed hbefore, Bool.true_or, Bool.toNat_true]
        omega

-- A further member uses up the credit of the one before it.
theorem credit_startedAt (hfinished : d.finished = true) (input : Cursor) (offset : Nat) (s : S)
    (memory : M) : (d.startedAt offset s memory).credit input + 1 = d.credit input := by
  unfold Decoder.credit
  rw [hfinished, Bool.or_true]
  rfl

/-- A step that another one follows leaves less to be done. -/
theorem Went.below (hc : c.Progressing measure)
    (h : Went alloc d input sink events entered s buffer served stepped status) (hd : d.Traced)
    (hgoes : (status = .progress ∧ stepped.output.front ≠ []) ∨
      (status = .streamEnd ∧ entered.multipleMembers = true)) :
    Below ((entered.afterStep input stepped status).rank measure stepped.input)
      (d.rank measure input) := by
  have hcredit := h.credit_le hc hd
  have hreached := (traced_lasting.entered h.ran.enter hd).live s h.ran.session
  have henter := h.ran.enter
  have hsession := h.ran.session
  unfold Below Decoder.rank
  rw [Prod.lex_def, Prod.lex_def]
  dsimp only
  cases henter with
  | @member s' memory hfinished _ _ _ =>
      have hused := credit_startedAt hfinished input d.outputOffset s' memory
      exact Or.inl (by omega)
  | stay hstay =>
      rcases Nat.lt_or_eq_of_le hcredit with hless | hsame
      · exact Or.inl hless
      refine Or.inr ⟨hsame, ?_⟩
      rcases hgoes with ⟨rfl, hsomething⟩ | ⟨rfl, hmultiple⟩
      · refine Or.inr ⟨rfl, ?_⟩
        rw [afterStep_session, hsession]
        exact hc.lowers hreached h.ran.bounds h.ran.room h.ran.step h.outcome hsomething
      · have hrunning : d.finished = false := entered_running h.ran.enter hmultiple
        rw [hrunning]
        exact Or.inl Nat.zero_lt_one

variable [Sink σ]

/-- Every round of a push that another one follows leaves less to be done. -/
theorem Goes.lowers (hc : c.Progressing measure) {w next : Scene c Cursor σ} {events : List Event}
    (h : Goes w (.again events next)) (hw : w.decoder.Traced) :
    Below (next.decoder.rank measure next.input) (w.decoder.rank measure w.input) := by
  cases h with
  | passed went _ hfurther =>
      exact went.below hc hw (Or.inr ⟨rfl, (hasFurtherMember_iff.mp hfurther).1⟩)
  | @filled _ entered _ _ _ _ stepped status went hsomething _ _ hlast _ =>
      refine went.below hc hw ?_
      cases status with
      | progress => exact Or.inl ⟨rfl, hsomething⟩
      | streamEnd =>
          rw [isLast, Bool.not_eq_false'] at hlast
          exact Or.inr ⟨rfl, (hasFurtherMember_iff.mp hlast).1⟩

/-- A push comes to an end. -/
theorem exists_settles_push (hc : c.Progressing measure) {w : Scene c Cursor σ}
    (hw : w.decoder.Traced) : ∃ o, Settles (fun fuel => pushCursor fuel w) o := by
  by_cases hready : w.decoder.session = none
  · exact ⟨_, settles_push_of_not_ready hready⟩
  · have hends : ∃ o, Ends (fun _ => drive) w o := by
      refine exists_ends_of_wf
        (I := fun w : Scene c Cursor σ => w.decoder.session ≠ none ∧ w.decoder.Traced)
        below_wellFounded (fun w => w.decoder.rank measure w.input)
        (fun hw => exists_settles_drive hw.1) (fun hw hround => ?_) ⟨hready, hw⟩
      have hgoes := goes_of_settles hw.1 hround fun events turn hr => by cases hr
      exact ⟨⟨drive_ready hw.1 hround.of_const,
        traced_lasting.kept.drive hw.1 hw.2 hround.of_const⟩, hgoes.lowers hc hw.2⟩
    rcases hends with ⟨o, ho⟩
    exact ⟨o, (settles_push_iff hready).mpr ho⟩

omit [Sink σ] in
theorem exists_settles_attempt {w : Scene c Cursor σ} (hready : w.decoder.session ≠ none) :
    ∃ r, Settles (fun _ => attempt alloc w) r :=
  ⟨attempt alloc w, settles_const_iff.mpr ⟨rfl, attempt_ne_outOfFuel hready⟩⟩

omit [Sink σ] in
/-- The attempts of a step are rounds of the same kind, so a step comes to an end, too. -/
theorem exists_settles_step (hc : c.Progressing measure) {w : Scene c Cursor σ}
    (hw : w.decoder.Traced) : ∃ o, Settles (fun fuel => step fuel alloc w) o := by
  by_cases hready : w.decoder.session = none
  · exact ⟨_, ok_ne_outOfFuel _, 0, fun fuel _ => step_of_not_ready hready fuel alloc⟩
  · have hends : ∃ o, Ends (fun _ => attempt alloc) w o := by
      refine exists_ends_of_wf
        (I := fun w : Scene c Cursor σ => w.decoder.session ≠ none ∧ w.decoder.Traced)
        below_wellFounded (fun w => w.decoder.rank measure w.input)
        (fun hw => exists_settles_attempt hw.1)
        (fun hw hround => ?_) ⟨hready, hw⟩
      refine ⟨⟨attempt_ready hw.1 hround.of_const,
        traced_lasting.kept.attempt hw.1 hw.2 hround.of_const⟩, ?_⟩
      have hcases := attempted_of_eq hw.1 hround.of_const
      cases hcases with
      | passed hran hread houtcome hwritten _ hfurther =>
          exact Went.below hc ⟨hran, hread, houtcome, hwritten⟩ hw.2
            (Or.inr ⟨rfl, (hasFurtherMember_iff.mp hfurther).1⟩)
    rcases hends with ⟨o, ho⟩
    exact ⟨o, (settles_step_iff hready).mpr ho⟩

/-! ## Readers -/

-- What a round of a reading leaves of the reader, if another one follows.
theorem consume_onward (hc : c.Thorough) {d : Decoder c} (hlive : d.Live) {fuel : Nat}
    {reader : Reader} {buffer : List UInt8} {ended : Bool} {q : Logged Event (Turn c Cursor σ Bool)}
    (hfill : reader.fill = (.ok buffer, reader)) (hmore : buffer ≠ [])
    (hpush : d.push fuel buffer sink = .ok q) (hresult : q.result.result = .ok ended)
    (hgoes : ended = false ∨ q.result.decoder.multipleMembers = true) :
    reader.items = .data buffer :: (reader.consume q.result.input.index).items := by
  rcases fill_data hfill hmore with ⟨rest, hitems⟩
  have hdrained := push_drained hc hlive hpush hresult
  rw [show reader = ⟨.data buffer :: rest⟩ from congrArg Reader.mk hitems,
    consume_read hdrained.bytes, Reader.leaving, if_pos (hdrained.whole hgoes)]

/-- Every round of a reading that another one follows takes something from the reader. -/
theorem readRound_shortens (hc : c.Thorough) {w next : Scene c Reader σ} (hlive : w.decoder.Live)
    {fuel : Nat} {events : List Event} (h : readRound fuel w = .ok (.again events next)) :
    next.input.items.length < w.input.items.length := by
  have hpulled := pulled_of_readRound h
  cases hpulled with
  | interrupted hfill _ =>
      rw [fill_error hfill]
      exact Nat.lt_succ_self _
  | onward hfill hmore hpush hresult hgoes =>
      rw [consume_onward hc hlive hfill hmore hpush hresult hgoes]
      exact Nat.lt_succ_self _

theorem exists_settles_readRound (hc : c.Progressing measure) {w : Scene c Reader σ}
    (hw : w.decoder.Traced) : ∃ r, Settles (fun fuel => readRound fuel w) r := by
  rcases w with ⟨d, reader, sink⟩
  rcases hfill : reader.fill with ⟨cause | buffer, reader'⟩
  · simp only [readRound_of_fail hfill]
    by_cases hkind : cause.kind = .interrupted
    · exact ⟨_, settles_of_ok (if_pos hkind)⟩
    · exact ⟨_, settles_of_ok (if_neg hkind)⟩
  · by_cases hmore : buffer = []
    · subst hmore
      simp only [readRound_of_end hfill]
      exact ⟨_, settles_of_ok rfl⟩
    · simp only [readRound_of_data hfill hmore]
      rcases exists_settles_push (w := ⟨d, .ofBytes buffer, sink⟩) hc hw with ⟨o, ho⟩
      exact ⟨_, (settles_map_iff (stable_push _)).mpr ⟨o, ho, rfl⟩⟩

/-- A reading comes to an end. -/
theorem exists_settles_readAll (hc : c.Progressing measure) {w : Scene c Reader σ}
    (hw : w.decoder.Traced) : ∃ o, Settles (fun fuel => run (readRound fuel) fuel w) o := by
  have hends : ∃ o, Ends readRound w o := by
    refine exists_ends (I := fun w : Scene c Reader σ => w.decoder.Traced)
      (fun w => w.input.items.length) (fun hw => exists_settles_readRound hc hw)
      (fun hw hround => ?_) hw
    rcases hround.exists_fuel with ⟨fuel, hfuel⟩
    exact ⟨traced_lasting.kept.readRound hw hfuel,
      readRound_shortens hc.toThorough hw.live hfuel⟩
  rcases hends with ⟨o, ho⟩
  exact ⟨o, ho.settles stable_readRound⟩

end Rounds

/-! ## Sessions that are started -/

/-- So many sessions were started, or a further member was to have one. -/
def starts (events : List Event) : Nat :=
  events.countP fun
    | .sessionStarted | .nextMember _ => true
    | _ => false

theorem starts_append (as bs : List Event) : starts (as ++ bs) = starts as + starts bs :=
  List.countP_append

theorem starts_reset (d : Decoder c) : starts d.reset.events ≤ 1 := by
  rcases reset_cases d with ⟨s, memory, _, hreset⟩ | ⟨cause, memory, _, hreset⟩
  · rw [hreset]
    exact Nat.le_refl 1
  · rw [hreset]
    exact Nat.zero_le 1

theorem starts_noted (d : Decoder c) {noted : Event} (hnoted : starts [noted] = 0) :
    starts (noted :: d.reset.events) ≤ 1 := by
  rw [← List.singleton_append, starts_append, hnoted, Nat.zero_add]
  exact starts_reset d

theorem starts_finish (d : Decoder c) :
    starts d.finish.events ≤ (startedOver d.finish.result).toNat := by
  cases hpending : d.isPending with
  | true =>
      rw [finish_of_pending hpending]
      exact starts_noted d rfl
  | false =>
      rw [finish_of_not_pending hpending]
      exact Nat.le_refl 0

theorem starts_ofChunk (last : Bool) (chunk : Chunk) : starts (Event.ofChunk last chunk) = 0 := by
  cases last <;> rfl

section Starts

variable {measure : S → List UInt8 → Nat} {σ : Type} {alloc : Allocator σ} {d entered : Decoder c}
  {input : Cursor} {sink served : σ} {events : List Event} {s : S} {buffer : List UInt8}
  {stepped : Stepped S} {status : Status}

-- A further member is started only where there is something to be read.
theorem starts_of_entered (h : Entered d input events entered) :
    starts events + (entered.credit input - 1) ≤ d.credit input - 1 := by
  cases h with
  | stay _ =>
      rw [show starts [] = 0 from rfl]
      omega
  | @member s memory hfinished hmore _ _ =>
      have hused := credit_startedAt hfinished input d.outputOffset s memory
      have hpos : 0 < (d.startedAt d.outputOffset s memory).credit input :=
        Nat.lt_of_lt_of_le (List.length_pos_iff.mpr hmore) (Nat.le_add_right _ _)
      rw [show starts [.nextMember d.outputOffset] = 1 from rfl]
      omega

theorem Went.starts (hc : c.Progressing measure)
    (h : Went alloc d input sink events entered s buffer served stepped status) (hd : d.Traced) :
    starts events + ((entered.afterStep input stepped status).credit stepped.input - 1) ≤
      d.credit input - 1 := by
  have henter := starts_of_entered h.ran.enter
  have hcredit := h.credit_le hc hd
  omega

-- After a failure one more session is started.
theorem starts_of_failed (h : Entered d input events entered) (e : Decoder c) (noted : Event)
    (hnoted : starts [noted] = 0) :
    starts (events ++ noted :: e.reset.events) ≤ d.credit input - 1 + 1 := by
  have henter := starts_of_entered h
  have hreset := starts_noted e hnoted
  rw [starts_append]
  omega

/-- The credit pays for all sessions that an attempt starts, but for one after a failure. -/
theorem starts_of_attempt (hc : c.Progressing measure) {w : Scene c Cursor σ}
    (hready : w.decoder.session ≠ none) (hw : w.decoder.Traced)
    {r : Round Event (Scene c Cursor σ) (Turn c Cursor σ Progress)}
    (h : attempt alloc w = .ok r) :
    match r with
    | .again events next =>
      starts events + (next.decoder.credit next.input - 1) ≤ w.decoder.credit w.input - 1
    | .done events turn =>
      match turn.result with
      | .ok _ => starts events + (turn.decoder.credit turn.input - 1) ≤ w.decoder.credit w.input - 1
      | .error error => starts events ≤ w.decoder.credit w.input - 1 + error.startsOver.toNat := by
  have hcases := attempted_of_eq hready h
  cases hcases with
  | spent _ _ => exact Nat.le_of_eq (Nat.zero_add _)
  | @refused cause memory hfinished hmore _ _ =>
      have hpos := List.length_pos_iff.mpr hmore
      show 1 ≤ w.decoder.credit w.input - 1 + 0
      unfold Decoder.credit
      rw [hfinished, Bool.or_true, Bool.toNat_true]
      omega
  | unserved henter _ => exact starts_of_failed henter _ _ rfl
  | failed hran _ _ => exact starts_of_failed hran.enter _ _ rfl
  | starved hran hread houtcome hwritten _ =>
      exact Went.starts hc ⟨hran, hread, houtcome, hwritten⟩ hw
  | passed hran hread houtcome hwritten _ _ =>
      exact Went.starts hc ⟨hran, hread, houtcome, hwritten⟩ hw
  | closed hran hread houtcome hwritten _ _ =>
      exact Went.starts hc ⟨hran, hread, houtcome, hwritten⟩ hw
  | filled hran hread houtcome hwritten _ _ _ =>
      have hstarts := Went.starts hc ⟨hran, hread, houtcome, hwritten⟩ hw
      dsimp only
      rw [starts_append, starts_ofChunk]
      exact hstarts

variable [Sink σ]

/-- The credit pays for the sessions that a round of a push starts and for what is left of the
    push, but not for a session after a failure. -/
def Pays (credit : Nat) : PushRound c σ → Prop
  | .again events next => starts events + (next.decoder.credit next.input - 1) ≤ credit - 1
  | .done events turn => starts events ≤ credit - 1 + (startedOver turn.result).toNat

-- The delivery of a chunk starts a session only if the sink refuses it.
theorem pays_for_delivery {credit : Nat} {w : Scene c Cursor σ} {events : List Event}
    (h : starts events + (w.decoder.credit w.input - 1) ≤ credit - 1) (last : Bool)
    (chunk : Chunk) : Pays credit (deliverThen last events chunk w) := by
  rcases w with ⟨d, input, sink⟩
  dsimp only at h
  rcases hpush : Sink.push sink chunk with ⟨cause | ⟨⟩, sink'⟩
  · rw [deliverThen_of_error hpush]
    have hreset := starts_noted d (show starts [.chunkRejected chunk.offset cause] = 0 from rfl)
    show starts (events ++ .chunkRejected chunk.offset cause :: d.reset.events) ≤ credit - 1 + 1
    rw [starts_append]
    omega
  · rw [deliverThen_of_ok hpush]
    cases last with
    | true => exact Nat.le_of_add_right_le h
    | false => exact h

theorem pays_for_drive (hc : c.Progressing measure) {w : Scene c Cursor σ}
    (hready : w.decoder.session ≠ none) (hw : w.decoder.Traced) {r : PushRound c σ}
    (h : drive w = .ok r) : Pays (w.decoder.credit w.input) r := by
  rcases drive_cases h with ⟨events, next, hattempt, rfl⟩ | ⟨events, turn, hattempt, rfl⟩
  · exact starts_of_attempt hc hready hw hattempt
  · have hstarts := starts_of_attempt hc hready hw hattempt
    rcases turn with ⟨scene, error | chunk | last | _⟩
    · exact hstarts
    · exact pays_for_delivery hstarts false chunk
    · cases last with
      | none => exact Nat.le_trans (Nat.le_of_add_right_le hstarts) (Nat.le_add_right _ _)
      | some chunk => exact pays_for_delivery hstarts true chunk
    · exact Nat.le_trans (Nat.le_of_add_right_le hstarts) (Nat.le_add_right _ _)

/-- A push starts no more sessions than there are bytes, and one after a failure. -/
theorem starts_of_push (hc : c.Progressing measure) {w : Scene c Cursor σ} (hw : w.decoder.Traced)
    {fuel : Nat} {r : Logged Event (Turn c Cursor σ Bool)} (h : pushCursor fuel w = .ok r) :
    starts r.events ≤ w.input.rest.length + (startedOver r.result.result).toNat := by
  by_cases hready : w.decoder.session = none
  · cases push_of_not_ready hready h
    exact Nat.zero_le _
  · refine Nat.le_trans ?_ (Nat.add_le_add_right (credit_le w.decoder w.input) _)
    have hends := ends_of_push hready h
    clear h
    induction hends using Ends.ok_induction with
    | done hs => exact pays_for_drive hc hready hw hs.of_const
    | @again w next events r hs _ ih =>
        have hfirst : starts events + (next.decoder.credit next.input - 1) ≤
            w.decoder.credit w.input - 1 := pays_for_drive hc hready hw hs.of_const
        have hrest := ih (traced_lasting.kept.drive hready hw hs.of_const)
          (drive_ready hready hs.of_const)
        dsimp only
        rw [starts_append]
        omega

theorem unread_data {reader rest : Reader} {bytes : List UInt8}
    (h : reader.items = .data bytes :: rest.items) :
    reader.unread = bytes.length + rest.unread := by
  rw [Reader.unread, h]
  rfl

theorem unread_fail {reader rest : Reader} {cause : IoError}
    (h : reader.items = .fail cause :: rest.items) : reader.unread = rest.unread := by
  rw [Reader.unread, h]
  exact Nat.zero_add _

omit [Sink σ] in
/-- A step starts no more sessions than there are bytes, and one after a failure. -/
theorem starts_of_step (hc : c.Progressing measure) {w : Scene c Cursor σ} (hw : w.decoder.Traced)
    {fuel : Nat} {r : Logged Event (Turn c Cursor σ Progress)} (h : step fuel alloc w = .ok r) :
    starts r.events ≤ w.input.rest.length + (startedOver r.result.result).toNat := by
  by_cases hready : w.decoder.session = none
  · rw [step_of_not_ready hready] at h
    cases h
    exact Nat.zero_le _
  · refine Nat.le_trans ?_ (Nat.add_le_add_right (credit_le w.decoder w.input) _)
    have hends := ends_of_step hready h
    clear h
    induction hends using Ends.ok_induction with
    | @done w events turn hs =>
        have hstarts := starts_of_attempt hc hready hw hs.of_const
        rcases turn with ⟨scene, error | progress⟩
        · exact hstarts
        · exact Nat.le_trans (Nat.le_of_add_right_le hstarts) (Nat.le_add_right _ _)
    | @again w next events r hs _ ih =>
        have hfirst : starts events + (next.decoder.credit next.input - 1) ≤
            w.decoder.credit w.input - 1 := starts_of_attempt hc hready hw hs.of_const
        have hrest := ih (traced_lasting.kept.attempt hready hw hs.of_const)
          (attempt_ready hready hs.of_const)
        dsimp only
        rw [starts_append]
        omega

/-- A reading starts no more sessions than the reader has bytes, and one after a failure. -/
theorem starts_of_readAll (hc : c.Progressing measure) {w : Scene c Reader σ}
    (hw : w.decoder.Traced) {fuel : Nat} {r : Logged Event (Turn c Reader σ Unit)}
    (h : run (readRound fuel) fuel w = .ok r) :
    starts r.events ≤ w.input.unread + (startedOver r.result.result).toNat := by
  have hends := ends_of_run stable_readRound fuel h (ok_ne_outOfFuel r)
  clear h
  have hbuffer : ∀ {d : Decoder c} {sink : σ} {buffer : List UInt8} {n : Nat}
      {q : Logged Event (Turn c Cursor σ Bool)}, d.Traced → d.push n buffer sink = .ok q →
      starts q.events ≤ buffer.length + (startedOver q.result.result).toNat :=
    fun {d sink buffer _ _} hd hpush => starts_of_push (w := ⟨d, .ofBytes buffer, sink⟩) hc hd hpush
  have hshown : ∀ {reader : Reader} {buffer : List UInt8}, reader.fill = (.ok buffer, reader) →
      buffer ≠ [] → buffer.length ≤ reader.unread := by
    intro reader buffer hfill hmore
    rcases fill_data hfill hmore with ⟨rest, hitems⟩
    have hunread : reader.unread = buffer.length + (⟨rest⟩ : Reader).unread := unread_data hitems
    rw [hunread]
    exact Nat.le_add_right _ _
  induction hends using Ends.ok_induction with
  | done hs =>
      rcases hs.exists_fuel with ⟨n, hn⟩
      have hpulled := pulled_of_readRound hn
      cases hpulled with
      | failed _ _ => exact Nat.le_trans (starts_noted _ rfl) (Nat.le_add_left _ _)
      | exhausted _ => exact Nat.le_trans (starts_finish _) (Nat.le_add_left _ _)
      | broken hfill hmore hpush hresult =>
          have hstarts := hbuffer hw hpush
          rw [hresult] at hstarts
          exact Nat.le_trans hstarts (Nat.add_le_add_right (hshown hfill hmore) _)
      | ended hfill hmore hpush hresult _ =>
          have hstarts := hbuffer hw hpush
          rw [hresult] at hstarts
          exact Nat.le_trans hstarts (Nat.add_le_add_right (hshown hfill hmore) _)
  | @again w next events r hs _ ih =>
      rcases hs.exists_fuel with ⟨n, hn⟩
      have hrest := ih (traced_lasting.kept.readRound hw hn)
      have hpulled := pulled_of_readRound hn
      dsimp only
      rw [starts_append]
      cases hpulled with
      | @interrupted d reader later sink cause hfill _ =>
          rw [unread_fail (fill_error hfill), show starts [] = 0 from rfl, Nat.zero_add]
          exact hrest
      | @onward d reader sink buffer ended q hfill hmore hpush hresult hgoes =>
          have hstarts : starts q.events ≤ buffer.length := by
            have hall := hbuffer hw hpush
            rwa [hresult] at hall
          rw [unread_data (consume_onward hc.toThorough hw.live hfill hmore hpush hresult hgoes)]
          dsimp only at hrest
          omega

end Starts

/-! ## All loops -/

/-- The call comes to an end. It returns, unless more is decoded than there are offsets for, and if
    it does it has started no more sessions than there are bytes, and one after a failure. -/
structure Terminates {ι σ α : Type} (call : Nat → Except Fault (Logged Event (Turn c ι σ α)))
    (bytes : Nat) (overruns : Prop) : Prop where
  settles : ∃ o, Settles call o
  starts : ∀ {fuel r}, call fuel = .ok r →
    starts r.events ≤ bytes + (startedOver r.result.result).toNat
  returns : c.Contract → ¬ overruns → ∃ r, Settles call (.ok r)

-- A call that comes to an end returns if it does not fault.
theorem returns_of_settles {α : Type} {call : Nat → Except Fault α} {overruns : Prop}
    (hsettles : ∃ o, Settles call o)
    (hfault : ∀ {fuel fault}, call fuel = .error fault → fault ≠ .outOfFuel → overruns)
    (hnot : ¬ overruns) : ∃ r, Settles call (.ok r) := by
  rcases hsettles with ⟨fault | r, ho⟩
  · rcases ho.exists_fuel with ⟨fuel, hfuel⟩
    exact absurd (hfault hfuel fun hc => ho.1 (by rw [hc])) hnot
  · exact ⟨r, ho⟩

/-- Every push and every step comes to an end, whatever the decoder has been through and whatever
    the sink does, and so does decoding from a reader that comes to finitely many things: sessions
    may write without reading, and members may be empty, but every one of them reads something. -/
theorem loops_end {measure : S → List UInt8 → Nat} (hc : c.Progressing measure) {d : Decoder c}
    (hd : Reachable d) {σ τ : Type} [Sink σ] :
    (∀ (input : List UInt8) (sink : σ), Terminates (fun fuel => d.push fuel input sink)
      input.length (Overruns ⟨d, .ofBytes input, sink⟩)) ∧
    (∀ (alloc : Allocator τ) (input : Cursor) (sink : τ), input.InBounds →
      Terminates (fun fuel => step fuel alloc ⟨d, input, sink⟩) input.rest.length
        (∃ events w, Leads (fun _ => attempt alloc) ⟨d, input, sink⟩ events w ∧
          w.decoder.Exceeds w.input)) ∧
    ∀ (reader : Reader) (sink : σ), Terminates (fun fuel => d.readAll fuel reader sink)
      reader.unread (OverrunsReading ⟨d, reader, sink⟩) := by
  have htraced := hd.traced
  refine ⟨fun input sink => ?_, fun alloc input sink hbounds => ?_, fun reader sink => ?_⟩
  · have hsettles := exists_settles_push (w := ⟨d, .ofBytes input, sink⟩) hc htraced
    exact ⟨hsettles, fun h => starts_of_push (w := ⟨d, .ofBytes input, sink⟩) hc htraced h,
      fun hcontract => returns_of_settles hsettles fun h hne =>
        (fault_of_push hcontract (hd.aligned hcontract) (Nat.zero_le _) h hne).2⟩
  · have hsettles : ∃ o, Settles (fun fuel => step fuel alloc ⟨d, input, sink⟩) o :=
      exists_settles_step hc htraced
    refine ⟨hsettles, fun h => starts_of_step (w := ⟨d, input, sink⟩) hc htraced h,
      fun hcontract => returns_of_settles hsettles fun h hne => ?_⟩
    by_cases hready : d.session = none
    · rw [step_of_not_ready hready] at h
      cases h
    · exact (fault_of_step hcontract ⟨hready, hd.aligned hcontract, hbounds⟩ h hne).2
  · have hsettles := exists_settles_readAll (w := ⟨d, reader, sink⟩) hc htraced
    exact ⟨hsettles, fun h => starts_of_readAll (w := ⟨d, reader, sink⟩) hc htraced h,
      fun hcontract => returns_of_settles hsettles fun h hne =>
        (fault_of_readAll hcontract (hd.aligned hcontract) h hne).2⟩

/-! ## Calls with a codec that copies -/

theorem copier_progressing : copier.Progressing fun _ rest => rest.length where
  toThorough := copier_thorough
  forward := by
    rintro ⟨total, ended⟩ input buffer stepped status _ _ hroom hstep _
    cases ended with
    | true =>
        subst hstep
        exact Nat.le_refl _
    | false =>
        rcases copied hstep with ⟨_, _, _, _, _, ⟨_, _, _, hinput⟩ | ⟨_, _, _, hinput, _⟩⟩
        · rw [hinput]
          exact Nat.le_add_right _ _
        · rw [hinput]
          exact Nat.le_add_right _ _
  lowers := by
    rintro ⟨total, ended⟩ input buffer stepped _ _ hroom hstep houtcome hsomething
    cases ended with
    | true =>
        subst hstep
        cases houtcome
    | false =>
        rcases copied hstep with ⟨data, _, _, hfront, _, ⟨hover, _⟩ | ⟨_, _, hrest, _⟩⟩
        · rw [hover] at houtcome
          cases houtcome
        · have hdata : 0 < data.length := List.length_pos_iff.mpr (hfront ▸ hsomething)
          rw [hrest, List.length_append]
          omega
  reads := by
    intro s u v ended input buffer stepped hdecoded hbounds hroom hstep houtcome
    have hnext := copier_decoded (hdecoded.step hbounds hroom hstep houtcome)
    rw [hnext.2.2]
    cases ended with
    | true => exact List.append_ne_nil_of_right_ne_nil _ (List.cons_ne_nil 0 [])
    | false => exact List.append_ne_nil_of_right_ne_nil _ (List.cons_ne_nil 0 [])

/-- Two empty members and the beginning of a third one, in one push, in one step and from a
    reader. -/
theorem loops_end_copier : copier.Progressing (fun _ rest => rest.length) ∧
    Reachable (Decoder.copying true).reset.decoder ∧
    Terminates
      (fun fuel => (Decoder.copying true).reset.decoder.push fuel [0, 0, 5] (#[] : Array Chunk)) 3
      (Overruns ⟨(Decoder.copying true).reset.decoder, .ofBytes [0, 0, 5], (#[] : Array Chunk)⟩) ∧
    Terminates (fun fuel => step fuel zeroAllocator
        ⟨(Decoder.copying true).reset.decoder, ⟨[9, 0, 0, 5], 1⟩, ()⟩) 3
      (∃ events w, Leads (fun _ => attempt zeroAllocator)
        ⟨(Decoder.copying true).reset.decoder, ⟨[9, 0, 0, 5], 1⟩, ()⟩ events w ∧
        w.decoder.Exceeds w.input) ∧
    Terminates (fun fuel => (Decoder.copying true).reset.decoder.readAll fuel
        ⟨[.data [0, 0], .fail ⟨.interrupted, "again"⟩, .data [5]]⟩ (#[] : Array Chunk)) 3
      (OverrunsReading ⟨(Decoder.copying true).reset.decoder,
        ⟨[.data [0, 0], .fail ⟨.interrupted, "again"⟩, .data [5]]⟩, (#[] : Array Chunk)⟩) := by
  have hset : Call.run (σ := Array Chunk) 0 (idle copier ()) (.setMultipleMembers true) =
      .ok (.ofOutcome (idle copier ()) ⟨.copying true, [], .ok ()⟩ false) := rfl
  have hreset : Call.reset.run (σ := Array Chunk) 0 (Decoder.copying true) =
      .ok (.ofOutcome (.copying true) (Decoder.copying true).reset true) := rfl
  have hreachable : Reachable (Decoder.copying true).reset.decoder :=
    ((Reachable.idle ()).call hset).call hreset
  rcases loops_end copier_progressing hreachable (σ := Array Chunk) (τ := Unit) with
    ⟨hpush, hstep, hread⟩
  exact ⟨copier_progressing, hreachable, hpush _ _, hstep _ _ _ (by decide), hread _ _⟩

end Decompression
