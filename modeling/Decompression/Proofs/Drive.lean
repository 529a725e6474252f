import Decompression.Decoder.Push
import Decompression.Proofs.Attempt
import Decompression.Proofs.Settling

/-!
# A Push as One Loop

A push is a loop whose rounds are steps of the decoder, and a step is a loop whose
rounds are attempts. The two loops can be told as one. `drive` makes an attempt and
delivers its chunk, if there is one; whether the attempt after it belongs to the same
step or to the next is of no consequence, because all that a new step does is to check
that there is a session, and between two rounds of a push there always is.

`settles_push_iff` is what this is for: whatever is to be proved about whole pushes is
an induction over the rounds of `drive`, and each round is one of the ways listed by
`Attempted`.

## Main definitions

* `Decoder.takeProgress`: What a push makes of the answer of a step.
* `Decoder.drive`: An attempt and the delivery of its chunk.

## Theorems

* `Decoder.stable_step`, `Decoder.stable_push`: More rounds do not change what a step
  or a push comes to.
* `Decoder.drive_ready`: Between two rounds there is a session.
* `Decoder.settles_step_iff`: A step comes to what its attempts lead to.
* `Decoder.settles_push_iff`: A push comes to what `drive` leads to.
-/

namespace Decompression.Decoder

open Loop

variable {S M : Type} {c : Codec S M} {σ : Type}

theorem isReady_iff {d : Decoder c} : d.isReady = true ↔ d.session ≠ none := by
  rw [isReady, Option.isSome_iff_ne_none]

/-! ## Steps -/

theorem stable_step (alloc : Allocator σ) (w : Scene c Cursor σ) :
    Stable fun fuel => step fuel alloc w := by
  unfold step
  by_cases hready : w.decoder.isReady = true
  · simp only [if_pos hready]
    have hrounds : ∀ w : Scene c Cursor σ, Stable fun _ => attempt alloc w :=
      fun w => stable_const (attempt alloc w)
    exact stable_run hrounds w
  · simp only [if_neg hready]
    exact stable_const _

/-- A step comes to what its attempts lead to. -/
theorem settles_step_iff {alloc : Allocator σ} {w : Scene c Cursor σ}
    (hready : w.decoder.session ≠ none)
    {o : Except Fault (Logged Event (Turn c Cursor σ Progress))} :
    Settles (fun fuel => step fuel alloc w) o ↔ Ends (fun _ => attempt alloc) w o := by
  simp only [step, isReady_iff.mpr hready, if_true]
  have hrounds : ∀ w : Scene c Cursor σ, Stable fun _ => attempt alloc w :=
    fun w => stable_const (attempt alloc w)
  exact settles_run_iff hrounds

theorem ends_of_step {alloc : Allocator σ} {w : Scene c Cursor σ} {fuel : Nat}
    (hready : w.decoder.session ≠ none) {r : Logged Event (Turn c Cursor σ Progress)}
    (h : step fuel alloc w = .ok r) : Ends (fun _ => attempt alloc) w (.ok r) :=
  (settles_step_iff hready).mp ((stable_step alloc w).settles h (ok_ne_outOfFuel r))

/-- A step without a session is refused, and leaves everything as it is. -/
theorem step_of_not_ready {w : Scene c Cursor σ} (hready : w.decoder.session = none) (fuel : Nat)
    (alloc : Allocator σ) : step fuel alloc w = .ok ⟨[.notReady], ⟨w, .error .notReady⟩⟩ := by
  have hnot : w.decoder.isReady = false := by rw [isReady, hready]; rfl
  simp only [step, hnot, Bool.false_eq_true, if_false]

/-- The session is there again after every attempt that a further one follows, and after
    every attempt that hands out a chunk. -/
theorem attempt_ready {alloc : Allocator σ} {w : Scene c Cursor σ}
    (hready : w.decoder.session ≠ none)
    {r : Round Event (Scene c Cursor σ) (Turn c Cursor σ Progress)}
    (h : attempt alloc w = .ok r) :
    match r with
    | .again _ next => next.decoder.session ≠ none
    | .done _ turn => ∀ chunk, turn.result = .ok (.chunk chunk) → turn.decoder.session ≠ none := by
  have hcases := attempted_of_eq hready h
  cases hcases with
  | spent _ _ => exact fun _ hc => by cases hc
  | refused _ _ _ _ => exact fun _ hc => by cases hc
  | unserved _ _ => exact fun _ hc => by cases hc
  | failed _ _ _ => exact fun _ hc => by cases hc
  | starved _ _ _ _ _ => exact fun _ hc => by cases hc
  | closed _ _ _ _ _ _ => exact fun _ hc => by cases hc
  | passed _ _ _ _ _ _ =>
      simp only [afterStep_session, ne_eq, reduceCtorEq, not_false_eq_true]
  | filled _ _ _ _ _ _ _ =>
      intro _ _
      simp only [afterStep_session, ne_eq, reduceCtorEq, not_false_eq_true]

-- Whatever an attempt faults for, it is not the number of rounds.
theorem attempt_ne_outOfFuel {alloc : Allocator σ} {w : Scene c Cursor σ}
    (hready : w.decoder.session ≠ none) : attempt alloc w ≠ .error .outOfFuel := by
  intro hc
  have hcases := attempted_of_eq hready hc
  cases hcases with
  | miscounted _ _ _ _ _ _ hne => exact hne rfl

theorem attempts_ready {alloc : Allocator σ} {w : Scene c Cursor σ}
    {r : Logged Event (Turn c Cursor σ Progress)}
    (h : Ends (fun _ => attempt alloc) w (.ok r)) (hready : w.decoder.session ≠ none)
    {chunk : Chunk}
    (hchunk : r.result.result = .ok (.chunk chunk)) : r.result.decoder.session ≠ none := by
  induction h using Ends.ok_induction with
  | done hs => exact attempt_ready hready hs.of_const chunk hchunk
  | again hs _ ih => exact ih (attempt_ready hready hs.of_const) hchunk

section Push

variable [Sink σ]

/-! ## One round of a push -/

theorem deliver_of_ok {d : Decoder c} {sink sink' : σ} {chunk : Chunk}
    (h : Sink.push sink chunk = (.ok (), sink')) :
    d.deliver sink chunk = (⟨d, [], .ok ()⟩, sink') := by
  simp only [deliver, h]

theorem deliver_of_error {d : Decoder c} {sink sink' : σ} {chunk : Chunk} {cause : IoError}
    (h : Sink.push sink chunk = (.error cause, sink')) :
    d.deliver sink chunk =
      (d.failAfter (.chunkRejected chunk.offset cause) (.sink cause), sink') := by
  simp only [deliver, h]

theorem deliverThen_of_ok {d : Decoder c} {input : Cursor} {sink sink' : σ} {chunk : Chunk}
    (h : Sink.push sink chunk = (.ok (), sink')) (last : Bool) (events : List Event) :
    deliverThen last events chunk ⟨d, input, sink⟩ =
      if last then .done events ⟨⟨d, input, sink'⟩, .ok true⟩
      else .again events ⟨d, input, sink'⟩ := by
  simp only [deliverThen, deliver_of_ok h, List.append_nil]

theorem deliverThen_of_error {d : Decoder c} {input : Cursor} {sink sink' : σ} {chunk : Chunk}
    {cause : IoError} (h : Sink.push sink chunk = (.error cause, sink')) (last : Bool)
    (events : List Event) :
    deliverThen last events chunk ⟨d, input, sink⟩ =
      .done (events ++ .chunkRejected chunk.offset cause :: d.reset.events)
        ⟨⟨d.reset.decoder, input, sink'⟩, .error (.sink cause)⟩ := by
  simp only [deliverThen, deliver_of_error h]
  rfl

/-- What a push makes of the answer of a step. -/
def takeProgress (events : List Event) : Turn c Cursor σ Progress → PushRound c σ
  | ⟨w, .error error⟩ => .done events ⟨w, .error error⟩
  | ⟨w, .ok .needInput⟩ => .done events ⟨w, .ok false⟩
  | ⟨w, .ok (.ended none)⟩ => .done events ⟨w, .ok true⟩
  | ⟨w, .ok (.ended (some chunk))⟩ => deliverThen true events chunk w
  | ⟨w, .ok (.chunk chunk)⟩ => deliverThen false events chunk w

theorem takeProgress_ofChunk (last : Bool) (events : List Event) (chunk : Chunk)
    (w : Scene c Cursor σ) :
    takeProgress events ⟨w, .ok (.ofChunk last chunk)⟩ = deliverThen last events chunk w := by
  cases last <;> rfl

theorem pushRound_eq (fuel : Nat) (w : Scene c Cursor σ) :
    pushRound fuel w =
      (step fuel Sink.alloc w).map fun r => takeProgress r.events r.result := by
  unfold pushRound
  rcases step fuel Sink.alloc w with fault | ⟨events, ⟨w', error | chunk | last | _⟩⟩
  · rfl
  · rfl
  · rfl
  · cases last <;> rfl
  · rfl

/-- An attempt and the delivery of its chunk. -/
def drive (w : Scene c Cursor σ) : Except Fault (PushRound c σ) :=
  (attempt Sink.alloc w).map fun
    | .again events next => .again events next
    | .done events turn => takeProgress events turn

-- A round is an attempt that is not the last of its step, or the last one and what it leads to.
theorem drive_cases {w : Scene c Cursor σ} {r : PushRound c σ} (h : drive w = .ok r) :
    (∃ events next, attempt Sink.alloc w = .ok (.again events next) ∧ r = .again events next) ∨
    (∃ events turn, attempt Sink.alloc w = .ok (.done events turn) ∧
      r = takeProgress events turn) := by
  rcases map_eq_ok h with ⟨q, hattempt, rfl⟩
  cases q with
  | again events next => exact Or.inl ⟨events, next, hattempt, rfl⟩
  | done events turn => exact Or.inr ⟨events, turn, hattempt, rfl⟩

theorem deliverThen_append (last : Bool) (earlier events : List Event) (chunk : Chunk)
    (w : Scene c Cursor σ) :
    deliverThen last (earlier ++ events) chunk w =
      roundAfter earlier (deliverThen last events chunk w) := by
  rcases w with ⟨d, input, sink⟩
  rcases hpush : Sink.push sink chunk with ⟨cause | ⟨⟩, sink'⟩
  · simp only [deliverThen_of_error hpush, roundAfter, List.append_assoc]
  · rw [deliverThen_of_ok hpush, deliverThen_of_ok hpush]
    cases last <;> rfl

theorem takeProgress_append (earlier events : List Event) (turn : Turn c Cursor σ Progress) :
    takeProgress (earlier ++ events) turn = roundAfter earlier (takeProgress events turn) := by
  rcases turn with ⟨w, error | chunk | last | _⟩
  · rfl
  · exact deliverThen_append false earlier events chunk w
  · cases last with
    | none => rfl
    | some chunk => exact deliverThen_append true earlier events chunk w
  · rfl

theorem takeProgress_again {events events' : List Event} {turn : Turn c Cursor σ Progress}
    {next : Scene c Cursor σ} (h : takeProgress events turn = .again events' next) :
    ∃ chunk, turn.result = .ok (.chunk chunk) ∧ next.decoder = turn.decoder := by
  rcases turn with ⟨⟨d, input, sink⟩, error | chunk | last | _⟩
  · cases h
  · refine ⟨chunk, rfl, ?_⟩
    rcases hpush : Sink.push sink chunk with ⟨cause | ⟨⟩, sink'⟩
    · rw [takeProgress, deliverThen_of_error hpush] at h
      cases h
    · rw [takeProgress, deliverThen_of_ok hpush] at h
      cases h
      rfl
  · cases last with
    | none => cases h
    | some chunk =>
        rcases hpush : Sink.push sink chunk with ⟨cause | ⟨⟩, sink'⟩
        · rw [takeProgress, deliverThen_of_error hpush] at h
          cases h
        · rw [takeProgress, deliverThen_of_ok hpush] at h
          cases h
  · cases h

theorem exists_settles_drive {w : Scene c Cursor σ} (hready : w.decoder.session ≠ none) :
    ∃ r, Settles (fun _ => drive w) r :=
  ⟨drive w, settles_const_iff.mpr ⟨rfl, fun hc =>
    attempt_ne_outOfFuel hready (map_eq_outOfFuel_iff.mp hc)⟩⟩

/-- Between two rounds there is a session. -/
theorem drive_ready {w next : Scene c Cursor σ} {events : List Event}
    (hready : w.decoder.session ≠ none) (h : drive w = .ok (.again events next)) :
    next.decoder.session ≠ none := by
  rcases drive_cases h with ⟨events', next', hattempt, hr⟩ | ⟨events', turn, hattempt, hr⟩
  · cases hr
    exact attempt_ready hready hattempt
  · rcases takeProgress_again hr.symm with ⟨chunk, hchunk, hdecoder⟩
    rw [hdecoder]
    exact attempt_ready hready hattempt chunk hchunk

/-! ## Whole pushes -/

theorem stable_pushRound (w : Scene c Cursor σ) : Stable fun fuel => pushRound fuel w := by
  simp only [pushRound_eq]
  exact (stable_step Sink.alloc w).map fun r => takeProgress r.events r.result

theorem stable_push (w : Scene c Cursor σ) : Stable fun fuel => pushCursor fuel w :=
  stable_run stable_pushRound w

/-- A round of a push, given what its step comes to. -/
theorem settles_pushRound {w : Scene c Cursor σ} (hready : w.decoder.session ≠ none)
    {o : Except Fault (Logged Event (Turn c Cursor σ Progress))}
    (h : Ends (fun _ => attempt Sink.alloc) w o) :
    Settles (fun fuel => pushRound fuel w) (o.map fun r => takeProgress r.events r.result) := by
  simp only [pushRound_eq]
  exact (settles_map_iff (stable_step Sink.alloc w)).mpr ⟨o, (settles_step_iff hready).mpr h, rfl⟩

/-- The attempts of a step and the delivery after them, one round of `drive` each. -/
theorem ends_drive_of_attempts {w : Scene c Cursor σ}
    {a : Except Fault (Logged Event (Turn c Cursor σ Progress))}
    (h : Ends (fun _ => attempt Sink.alloc) w a) :
    match a with
    | .error f => Ends (fun _ => drive) w (.error f)
    | .ok ⟨events, turn⟩ =>
      match takeProgress events turn with
      | .done events' turn' => Ends (fun _ => drive) w (.ok ⟨events', turn'⟩)
      | .again events' next => ∀ o, Ends (fun _ => drive) next o →
          Ends (fun _ => drive) w (preceded events' o) := by
  induction h with
  | @fault w f hs =>
      have hattempt := hs.of_const
      refine .fault (hs.of_fault ?_)
      simp only [drive, hattempt, Except.map]
  | @done w events turn hs =>
      have hattempt := hs.of_const
      have hdrive : drive w = .ok (takeProgress events turn) := by
        simp only [drive, hattempt, Except.map]
      cases htake : takeProgress events turn with
      | done events' turn' =>
          simp only [htake]
          exact .done (settles_of_ok (by rw [hdrive, htake]))
      | again events' next =>
          simp only [htake]
          exact fun o ho => .again (settles_of_ok (by rw [hdrive, htake])) ho
  | @again w next events a hs htail ih =>
      have hattempt := hs.of_const
      have hdrive : Settles (fun _ => drive w) (.ok (.again events next)) := by
        refine settles_of_ok ?_
        simp only [drive, hattempt, Except.map]
      cases a with
      | error f => exact .again hdrive ih
      | ok r =>
          rcases r with ⟨events', turn⟩
          cases htake : takeProgress events' turn with
          | done events'' turn' =>
              simp only [htake] at ih
              simp only [preceded_ok, takeProgress_append, htake, roundAfter]
              exact .again hdrive ih
          | again events'' next' =>
              simp only [htake] at ih
              simp only [preceded_ok, takeProgress_append, htake, roundAfter]
              intro o ho
              rw [preceded_append]
              exact .again hdrive (ih o ho)

/-- A round of a push, taken apart. -/
theorem attempts_of_pushRound {w : Scene c Cursor σ} {r : Except Fault (PushRound c σ)}
    (hready : w.decoder.session ≠ none) (h : Settles (fun fuel => pushRound fuel w) r) :
    ∃ a, Ends (fun _ => attempt Sink.alloc) w a ∧
      (a.map fun r => takeProgress r.events r.result) = r := by
  simp only [pushRound_eq] at h
  rcases (settles_map_iff (stable_step Sink.alloc w)).mp h with ⟨a, ha, hmap⟩
  exact ⟨a, (settles_step_iff hready).mp ha, hmap⟩

theorem ends_drive_of_push {w : Scene c Cursor σ}
    {o : Except Fault (Logged Event (Turn c Cursor σ Bool))} (h : Ends pushRound w o)
    (hready : w.decoder.session ≠ none) : Ends (fun _ => drive) w o := by
  induction h with
  | fault hs =>
      rcases attempts_of_pushRound hready hs with ⟨fault | r, ha, hmap⟩
      · cases hmap
        exact ends_drive_of_attempts ha
      · cases hmap
  | done hs =>
      rcases attempts_of_pushRound hready hs with ⟨fault | ⟨events, turn⟩, ha, hmap⟩
      · cases hmap
      · have h := ends_drive_of_attempts ha
        simp only [Except.map, Except.ok.injEq] at hmap
        simp only [hmap] at h
        exact h
  | again hs _ ih =>
      rcases attempts_of_pushRound hready hs with ⟨fault | ⟨events, turn⟩, ha, hmap⟩
      · cases hmap
      · have h := ends_drive_of_attempts ha
        simp only [Except.map, Except.ok.injEq] at hmap
        simp only [hmap] at h
        refine h _ (ih ?_)
        rcases takeProgress_again hmap with ⟨chunk, hchunk, hdecoder⟩
        rw [hdecoder]
        exact attempts_ready ha hready hchunk

/-- An attempt that is not the last of its step, in front of the rest of a push. -/
theorem ends_push_of_again {w next : Scene c Cursor σ} {events : List Event}
    {o : Except Fault (Logged Event (Turn c Cursor σ Bool))}
    (hready : w.decoder.session ≠ none)
    (hattempt : attempt Sink.alloc w = .ok (.again events next)) (h : Ends pushRound next o) :
    Ends pushRound w (preceded events o) := by
  have hnext : next.decoder.session ≠ none := attempt_ready hready hattempt
  have hfirst : ∀ {a}, Ends (fun _ => attempt Sink.alloc) next a →
      Settles (fun fuel => pushRound fuel w)
        ((preceded events a).map fun r => takeProgress r.events r.result) := fun ha =>
    settles_pushRound hready (.again (settles_of_ok hattempt) ha)
  cases h with
  | fault hs =>
      rcases attempts_of_pushRound hnext hs with ⟨fault | r, ha, hmap⟩
      · cases hmap
        exact .fault (hfirst ha)
      · cases hmap
  | done hs =>
      rcases attempts_of_pushRound hnext hs with ⟨fault | ⟨events', turn⟩, ha, hmap⟩
      · cases hmap
      · simp only [Except.map, Except.ok.injEq] at hmap
        have h := hfirst ha
        simp only [preceded_ok, Except.map, takeProgress_append, hmap, roundAfter] at h
        exact .done h
  | again hs htail =>
      rcases attempts_of_pushRound hnext hs with ⟨fault | ⟨events', turn⟩, ha, hmap⟩
      · cases hmap
      · simp only [Except.map, Except.ok.injEq] at hmap
        have h := hfirst ha
        simp only [preceded_ok, Except.map, takeProgress_append, hmap, roundAfter] at h
        rw [← preceded_append]
        exact .again h htail

theorem ends_push_of_drive {w : Scene c Cursor σ}
    {o : Except Fault (Logged Event (Turn c Cursor σ Bool))} (h : Ends (fun _ => drive) w o)
    (hready : w.decoder.session ≠ none) : Ends pushRound w o := by
  -- The last attempt of a step makes a round of its own, and the attempts before it are put back
  -- in front of that round.
  have hlast : ∀ {w : Scene c Cursor σ} {events : List Event} {turn : Turn c Cursor σ Progress},
      w.decoder.session ≠ none → attempt Sink.alloc w = .ok (.done events turn) →
      Settles (fun fuel => pushRound fuel w) (.ok (takeProgress events turn)) :=
        fun hready hattempt =>
    settles_pushRound hready (.done (settles_of_ok hattempt))
  induction h with
  | @fault w f hs =>
      have hdrive := hs.of_const
      have hattempt : attempt Sink.alloc w = .error f := by
        unfold drive at hdrive
        cases hattempt : attempt Sink.alloc w with
        | error fault => rw [hattempt] at hdrive; cases hdrive; rfl
        | ok q => rw [hattempt] at hdrive; cases hdrive
      exact .fault (settles_pushRound hready (.fault (hs.of_fault hattempt)))
  | done hs =>
      rcases drive_cases hs.of_const with ⟨_, _, _, hr⟩ | ⟨_, _, hattempt, hr⟩
      · cases hr
      · have hround := hlast hready hattempt
        rw [← hr] at hround
        exact .done hround
  | again hs _ ih =>
      have hrest := ih (drive_ready hready hs.of_const)
      rcases drive_cases hs.of_const with ⟨_, _, hattempt, hr⟩ | ⟨_, _, hattempt, hr⟩
      · cases hr
        exact ends_push_of_again hready hattempt hrest
      · have hround := hlast hready hattempt
        rw [← hr] at hround
        exact .again hround hrest

/-- A push comes to what its rounds lead to, told as one loop. -/
theorem settles_push_iff {w : Scene c Cursor σ} (hready : w.decoder.session ≠ none)
    {o : Except Fault (Logged Event (Turn c Cursor σ Bool))} :
    Settles (fun fuel => pushCursor fuel w) o ↔ Ends (fun _ => drive) w o := by
  constructor
  · exact fun h => ends_drive_of_push ((settles_run_iff stable_pushRound).mp h) hready
  · exact fun h => (settles_run_iff stable_pushRound).mpr (ends_push_of_drive h hready)

theorem ends_of_push {w : Scene c Cursor σ} {fuel : Nat} (hready : w.decoder.session ≠ none)
    {r : Logged Event (Turn c Cursor σ Bool)} (h : pushCursor fuel w = .ok r) :
    Ends (fun _ => drive) w (.ok r) :=
  (settles_push_iff hready).mp ((stable_push w).settles h (ok_ne_outOfFuel r))

/-- A push without a session is refused, and leaves everything as it is. -/
theorem settles_push_of_not_ready {w : Scene c Cursor σ} (hready : w.decoder.session = none) :
    Settles (fun fuel => pushCursor fuel w) (.ok ⟨[.notReady], ⟨w, .error .notReady⟩⟩) := by
  have hround : Settles (fun fuel => pushRound fuel w)
      (.ok (.done [.notReady] ⟨w, .error .notReady⟩)) := by
    refine ⟨ok_ne_outOfFuel _, 0, fun fuel _ => ?_⟩
    dsimp only
    rw [pushRound_eq, step_of_not_ready hready]
    rfl
  exact (settles_run_iff stable_pushRound).mpr (.done hround)

theorem push_of_not_ready {w : Scene c Cursor σ} (hready : w.decoder.session = none) {fuel : Nat}
    {r : Logged Event (Turn c Cursor σ Bool)} (h : pushCursor fuel w = .ok r) :
    r = ⟨[.notReady], ⟨w, .error .notReady⟩⟩ := by
  have hsettles := (stable_push w).settles h (ok_ne_outOfFuel r)
  exact Except.ok.inj (hsettles.unique (settles_push_of_not_ready hready))

-- So whatever is pushed without a failure is pushed with a session.
theorem ready_of_push {w : Scene c Cursor σ} {fuel : Nat}
    {r : Logged Event (Turn c Cursor σ Bool)} (h : pushCursor fuel w = .ok r) {ended : Bool}
    (hresult : r.result.result = .ok ended) : w.decoder.session ≠ none := by
  intro hready
  rw [push_of_not_ready hready h] at hresult
  cases hresult

end Push

end Decompression.Decoder
