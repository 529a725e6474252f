import Decompression.Bzip2.Session
import Decompression.Deflate.Session
import Decompression.Proofs.Bounds
import Decompression.Proofs.Concatenation
import Decompression.Proofs.Emission

/-!
# Pulling First and Pushing After

A caller may take the first chunks himself, step by step, and push the rest. Whether this
gives what one push would have given depends on the cut: the decoder keeps the state of the
stream, the cursor keeps the place in the input, and the push that comes after begins with
what is unread there. A session that looks at unread input only cannot tell the difference,
so it is enough to see that nothing else in a round of the loop looks at more.

That is said once, of a round: with other bytes before the position, and with another sink
that serves the same buffers and takes the same chunks, a round does the same. The input is
replaced and the sink is replaced by functions, so whole calls are equal and not merely
related, faults included.

At the cut there may be nothing left of the input while the session has more to give, or the
decoder may be between two members, where it is the mark of the finished stream that says
that the next step begins a further one. Neither needs a case of its own: a cut is any state
that some steps lead to.

## Main definitions

* `Codec.Oblivious`: Steps look at unread bytes only.
* `Scene.moved`, `Turn.moved`: Other bytes before the position, and another sink.
* `Pulls`: Steps that each answer with a chunk.
* `Turn.resumed`, `Turn.collected`: What a push leaves behind, seen from before the cut.

## Theorems

* `Loop.run_map`: Loops whose rounds correspond by a function.
* `attempt_moved`, `step_moved`, `push_moved`: What lies before the position is of no account.
* `leads_of_pulls`: Steps that answer with chunks are the first rounds of a push.
* `ends_iff_of_cut`: From a cut on, a push does what a push of the unread input does.
* `pull_and_push`: Steps up to any cut and then a push, or steps up to the end, are one push.
-/

namespace Decompression

open Decoder Loop

/-! ## Loops that correspond by a function -/

section Maps

variable {ε s t β γ : Type}

/-- A round with its state and its result replaced. -/
def Round.map (f : s → t) (g : β → γ) : Round ε s β → Round ε t γ
  | .again events state => .again events (f state)
  | .done events result => .done events (g result)

/-- The end of a loop with its result replaced. -/
def Logged.map (g : β → γ) (r : Logged ε β) : Logged ε γ :=
  ⟨r.events, g r.result⟩

theorem preceded_map (g : β → γ) (events : List ε) (o : Except Fault (Logged ε β)) :
    (preceded events o).map (Logged.map g) = preceded events (o.map (Logged.map g)) := by
  cases o <;> rfl

/-- Loops whose rounds correspond by a function come to ends that do. -/
theorem Loop.run_map {I : s → Prop} {f : s → t} {g : β → γ}
    {round : s → Except Fault (Round ε s β)} {round' : t → Except Fault (Round ε t γ)}
    (hround : ∀ a, I a → round' (f a) = (round a).map (Round.map f g))
    (hkeeps : ∀ a events next, I a → round a = .ok (.again events next) → I next) :
    ∀ (fuel : Nat) {a : s}, I a →
      run round' fuel (f a) = (run round fuel a).map (Logged.map g) := by
  intro fuel
  induction fuel with
  | zero => exact fun _ => rfl
  | succ fuel ih =>
      intro a ha
      have hfirst := hround a ha
      cases hr : round a with
      | error fault =>
          rw [hr] at hfirst
          rw [run_succ_error hr, run_succ_error hfirst]
          rfl
      | ok q =>
          rw [hr] at hfirst
          cases q with
          | done events result =>
              rw [run_succ_done hr, run_succ_done hfirst]
              rfl
          | again events next =>
              rw [run_succ_again hr, run_succ_again hfirst, preceded_map,
                ih (hkeeps a events next ha hr)]

variable {round : Nat → s → Except Fault (Round ε s β)}

/-- A loop comes to what it comes to from wherever its first rounds lead. -/
theorem Loop.ends_iff_of_leads {a a' : s} {events : List ε} (h : Leads round a events a')
    {o : Except Fault (Logged ε β)} :
    Ends round a o ↔ ∃ o', Ends round a' o' ∧ o = preceded events o' := by
  induction h generalizing o with
  | @here a =>
      have hnil : ∀ o : Except Fault (Logged ε β), preceded [] o = o := fun o => by cases o <;> rfl
      simp only [hnil, exists_eq_right']
  | @again a next last events later hs _ ih =>
      constructor
      · intro hends
        cases hends with
        | fault hs' => cases hs.unique hs'
        | done hs' => cases hs.unique hs'
        | again hs' hrest =>
            cases hs.unique hs'
            rcases ih.mp hrest with ⟨o', hlast, rfl⟩
            exact ⟨o', hlast, (preceded_append _ _ _).symm⟩
      · rintro ⟨o', hlast, rfl⟩
        rw [preceded_append]
        exact .again hs (ih.mpr ⟨o', hlast, rfl⟩)

end Maps

variable {S M : Type} {c : Codec S M}

/-! ## What lies before the position -/

/-- Steps look at unread bytes only, and read on from there. -/
def Codec.Oblivious (c : Codec S M) : Prop :=
  ∀ {s : S} {input : Cursor} {buffer : List UInt8} (before : List UInt8), c.Reached s →
    input.InBounds → buffer ≠ [] → c.step s (input.placed before []) (.ofBytes buffer) =
      (c.step s input (.ofBytes buffer)).placed before []

section Moving

variable {σ τ α : Type} {before : List UInt8} {g : σ → τ}

/-- The scene with more bytes before the position in its input, and with another sink. -/
def Scene.moved (before : List UInt8) (g : σ → τ) (w : Scene c Cursor σ) : Scene c Cursor τ :=
  ⟨w.decoder, w.input.placed before [], g w.sink⟩

def Turn.moved (before : List UInt8) (g : σ → τ) (turn : Turn c Cursor σ α) :
    Turn c Cursor τ α :=
  ⟨turn.toScene.moved before g, turn.result⟩

/-- The other sink provides the same buffers. -/
def ServesSame (alloc : Allocator σ) (alloc' : Allocator τ) (g : σ → τ) : Prop :=
  ∀ sink offset size, alloc' (g sink) offset size =
    ((alloc sink offset size).1, g (alloc sink offset size).2)

theorem placed_inBounds_iff {cursor : Cursor} :
    (cursor.placed before []).InBounds ↔ cursor.InBounds := by
  unfold Cursor.InBounds Cursor.placed
  simp only [List.length_append, List.length_nil]
  omega

theorem rest_moved {cursor : Cursor} (h : cursor.InBounds) :
    (cursor.placed before []).rest = cursor.rest := by
  rw [Cursor.rest_placed h, List.append_nil]

theorem enter_moved (d : Decoder c) (input : Cursor) :
    d.enter (input.placed before []) = d.enter input := by
  have hrest : (input.placed before []).rest? = input.rest? := by
    unfold Cursor.rest?
    by_cases h : input.InBounds
    · rw [if_pos h, if_pos (placed_inBounds_iff.mpr h), rest_moved h]
    · rw [if_neg h, if_neg fun hc => h (placed_inBounds_iff.mp hc)]
  simp only [enter, hrest]

theorem request_moved {alloc : Allocator σ} {alloc' : Allocator τ}
    (hserve : ServesSame alloc alloc' g) (d : Decoder c) (sink : σ) :
    d.request alloc' (g sink) = ((d.request alloc sink).1, g (d.request alloc sink).2) := by
  unfold request
  rw [hserve]
  rcases alloc sink d.outputOffset d.bufferSize.toNat with ⟨cause | buffer, served⟩
  · rfl
  · by_cases hsize : buffer.length = d.bufferSize.toNat
    · simp only [if_pos hsize]
    · simp only [if_neg hsize]

theorem conclude_moved (d : Decoder c) {input : Cursor} (h : input.InBounds) (output : Cursor)
    (status : Status) :
    d.conclude (input.placed before []) output status = d.conclude input output status := by
  have hfurther : ∀ d : Decoder c,
      d.hasFurtherMember (input.placed before []) = d.hasFurtherMember input := fun d => by
    simp only [hasFurtherMember, rest_moved h]
  unfold conclude concludeEmpty concludeChunk
  simp only [hfurther]

theorem runSession_moved (hc : c.Oblivious) (d : Decoder c) {s : S} (hs : c.Reached s)
    {input : Cursor} {buffer : List UInt8} (hroom : buffer ≠ []) :
    d.runSession s (input.placed before []) buffer =
      (d.runSession s input buffer).map fun v => (v.1, v.2.placed before []) := by
  unfold runSession
  by_cases hin : input.InBounds
  case neg =>
    rw [if_neg hin, if_neg (fun h => hin (placed_inBounds_iff.mp h))]
    rfl
  rw [if_pos hin, if_pos (placed_inBounds_iff.mpr hin), hc before hs hin hroom]
  generalize c.step s input (.ofBytes buffer) = stepped
  by_cases hread : stepped.input.InBounds
  case neg =>
    have hread' : ¬ (stepped.placed before []).input.InBounds :=
      fun h => hread (placed_inBounds_iff.mp h)
    simp only [if_neg hread, if_neg hread']
    rfl
  have hread' : (stepped.placed before []).input.InBounds := placed_inBounds_iff.mpr hread
  have hreturn : d.returnSession (stepped.placed before []).session (input.placed before [])
      (stepped.placed before []).input = d.returnSession stepped.session input stepped.input := by
    simp only [returnSession, Stepped.placed, Cursor.placed, Nat.add_lt_add_iff_left]
  have houtcome : (stepped.placed before []).outcome = stepped.outcome := rfl
  simp only [if_pos hread, if_pos hread', hreturn, houtcome]
  cases stepped.outcome with
  | error error => rfl
  | ok status =>
      have hconclude : ∀ d : Decoder c, d.conclude (stepped.placed before []).input
          (stepped.placed before []).output status =
          d.conclude stepped.input stepped.output status := fun d => conclude_moved d hread _ _
      simp only [hconclude]
      rw [map_map]
      rfl

/-- With other bytes before the position, and with another sink, an attempt does the same. -/
theorem attempt_moved (hc : c.Oblivious) {alloc : Allocator σ} {alloc' : Allocator τ}
    (hserve : ServesSame alloc alloc' g) {w : Scene c Cursor σ} (hlive : w.decoder.Live) :
    attempt alloc' (w.moved before g) =
      (attempt alloc w).map (Round.map (Scene.moved before g) (Turn.moved before g)) := by
  rcases w with ⟨d, input, sink⟩
  simp only [Scene.moved, attempt, enter_moved]
  rcases enter_cases d input with ⟨henter, _⟩ | ⟨henter, _⟩ | ⟨_, _, henter, _⟩ |
    ⟨events, entered, henter, hentered⟩
  · rw [henter]
    rfl
  · rw [henter]
    rfl
  · rw [henter]
    rfl
  rw [henter]
  simp only [request_moved hserve]
  rcases request_cases alloc entered sink with
    ⟨buffer, served, hrequest, _, hsize⟩ | ⟨cause, served, hrequest⟩
  case inr =>
    rw [hrequest]
    rfl
  rw [hrequest]
  cases hs : entered.session with
  | none =>
      simp only [lend?, hs]
      rfl
  | some s =>
      have hreached : c.Reached s := live_lasting.entered hentered hlive s hs
      have hroom : buffer ≠ [] := by
        rintro rfl
        exact absurd entered.bufferSize.pos (by rw [← hsize]; decide)
      simp only [lend?, hs, runSession_moved hc _ hreached hroom]
      cases runSession (c := c) { entered with session := none } s input buffer with
      | error fault => rfl
      | ok v =>
          rcases v with ⟨d' | o, input'⟩ <;> rfl

/-- So does a step. -/
theorem step_moved (before : List UInt8) (hc : c.Oblivious) {alloc : Allocator σ}
    {alloc' : Allocator τ} (hserve : ServesSame alloc alloc' g) (fuel : Nat)
    {w : Scene c Cursor σ} (hlive : w.decoder.Live) :
    step fuel alloc' (w.moved before g) =
      (step fuel alloc w).map (Logged.map (Turn.moved before g)) := by
  unfold step
  by_cases hready : w.decoder.isReady = true
  case neg =>
    have hready' : ¬ (w.moved before g).decoder.isReady = true := hready
    rw [if_neg hready, if_neg hready']
    rfl
  have hready' : (w.moved before g).decoder.isReady = true := hready
  rw [if_pos hready, if_pos hready']
  -- There is a session in every round, and it was started and stepped.
  refine Loop.run_map (I := fun w => w.decoder.session ≠ none ∧ w.decoder.Live)
    (fun w hw => attempt_moved hc hserve hw.2) (fun w events next hw hround => ?_) fuel
    ⟨isReady_iff.mp hready, hlive⟩
  exact ⟨attempt_ready hw.1 hround, live_lasting.attempt hw.1 hw.2 hround⟩

section Pushes

variable [Sink σ] [Sink τ]

/-- The other sink takes the same chunks. -/
def TakesSame (g : σ → τ) : Prop :=
  ∀ sink chunk, Sink.push (g sink) chunk =
    ((Sink.push sink chunk).1, g (Sink.push sink chunk).2)

theorem takeProgress_moved (htake : TakesSame g) (events : List Event)
    (turn : Turn c Cursor σ Progress) :
    takeProgress events (turn.moved before g) =
      (takeProgress events turn).map (Scene.moved before g) (Turn.moved before g) := by
  have hdeliver : ∀ (last : Bool) (chunk : Chunk) (w : Scene c Cursor σ),
      deliverThen last events chunk (w.moved before g) =
        (deliverThen last events chunk w).map (Scene.moved before g) (Turn.moved before g) := by
    rintro last chunk ⟨d, input, sink⟩
    have hpush' := htake sink chunk
    rcases hpush : Sink.push sink chunk with ⟨cause | taken, sink'⟩
    · rw [hpush] at hpush'
      rw [Scene.moved, deliverThen_of_error hpush, deliverThen_of_error hpush']
      rfl
    · rw [hpush] at hpush'
      rw [Scene.moved, deliverThen_of_ok hpush, deliverThen_of_ok hpush']
      cases last <;> rfl
  rcases turn with ⟨w, error | chunk | last | _⟩
  · rfl
  · exact hdeliver false chunk w
  · cases last with
    | none => rfl
    | some chunk => exact hdeliver true chunk w
  · rfl

/-- So does a push. -/
theorem push_moved (before : List UInt8) (hc : c.Oblivious)
    (hserve : ServesSame Sink.alloc Sink.alloc g) (htake : TakesSame g) (fuel : Nat)
    {w : Scene c Cursor σ} (hlive : w.decoder.Live) :
    pushCursor fuel (w.moved before g) =
      (pushCursor fuel w).map (Logged.map (Turn.moved before g)) := by
  refine Loop.run_map (I := fun w => w.decoder.Live) (fun w hw => ?_)
    (fun w events next hw hround => ?_) fuel hlive
  · simp only [pushRound_eq, step_moved before hc hserve fuel hw, map_map]
    congr 1
    funext r
    exact takeProgress_moved htake r.events r.result
  · rw [pushRound_eq] at hround
    rcases map_eq_ok hround with ⟨q, hstep, hagain⟩
    have htaken := live_lasting.kept.takeProgress q.events (live_lasting.kept.step hw hstep)
    rw [hagain] at htaken
    exact htaken

end Pushes

end Moving

/-! ## Codecs that look at unread bytes only -/

section Codecs

theorem copier_oblivious : copier.Oblivious :=
  fun before _ hbounds hroom => copier_local.unread _ before hbounds hroom

-- A primitive is given nothing but the unread bytes, and the codec has no part in this.
theorem Adapter.step_moved {P R ε : Type} (a : Adapter P R ε) (p : P) {input : Cursor}
    (before : List UInt8) (hbounds : input.InBounds) (output : Cursor) :
    a.step p (input.placed before []) output = (a.step p input output).placed before [] := by
  simp only [Adapter.step, rest_moved hbounds]
  rcases a.decompress p input.rest output.room with ⟨p', error | yield⟩
  · rfl
  · simp only [Stepped.placed, advance_placed]

theorem Deflate.oblivious (wrapped : Bool) : (Deflate.codec wrapped).Oblivious :=
  fun before _ hbounds _ => (Deflate.adapter Deflate.primitive).step_moved _ before hbounds _

theorem Bzip2.oblivious (small : Bool) : (Bzip2.codec small).Oblivious :=
  fun before _ hbounds _ => (Bzip2.adapter Bzip2.primitive).step_moved _ before hbounds _

end Codecs

/-! ## Steps up to a cut -/

section Pulling

/-- The decoder has met the end of its stream. -/
def Progress.atEnd : Progress → Bool
  | .ended _ => true
  | .chunk _ | .needInput => false

/-- Steps on one input that each answer with a chunk: what was noted, the chunks, and the
    decoder and the position that they lead to. -/
inductive Pulls : Decoder c → Cursor → List Event → List Chunk → Decoder c → Cursor → Prop
  -- No step yet
  | here {d : Decoder c} {input : Cursor} : Pulls d input [] [] d input
  -- A first step, and those that come after it
  | chunk {d d' d'' : Decoder c} {input input' input'' : Cursor} {events later : List Event}
      {chunk : Chunk} {chunks : List Chunk}
      (h : Settles (fun fuel => d.next fuel input)
        (.ok ⟨events, ⟨⟨d', input', ()⟩, .ok (.chunk chunk)⟩⟩))
      (rest : Pulls d' input' later chunks d'' input'') :
      Pulls d input (events ++ later) (chunk :: chunks) d'' input''

/-- What a push leaves behind that began at a cut, seen from before it. -/
def Turn.resumed (input : Cursor) (chunks : List Chunk)
    (turn : Turn c Cursor (Array Chunk) Bool) : Turn c Cursor (Array Chunk) Bool :=
  turn.moved input.front fun later => chunks.toArray ++ later

/-- What a push leaves behind, by the step it ends with and the chunks that came before. -/
def Turn.collected (chunks : List Chunk) (turn : Turn c Cursor Unit Progress) :
    Turn c Cursor (Array Chunk) Bool :=
  ⟨⟨turn.decoder, turn.input, (chunks ++ answeredChunks turn.result).toArray⟩,
    turn.result.map Progress.atEnd⟩

/-- The call did not answer with a chunk that there may be more after. -/
def IsLastStep (q : Except Fault (Logged Event (Turn c Cursor Unit Progress))) : Prop :=
  ∀ r chunk, q = .ok r → r.result.result ≠ .ok (.chunk chunk)

variable {d d' : Decoder c} {input input' : Cursor} {events : List Event} {chunks : List Chunk}

theorem Pulls.live (h : Pulls d input events chunks d' input') (hd : d.Live) : d'.Live := by
  induction h with
  | here => exact hd
  | chunk hnext _ ih =>
      rcases hnext.exists_fuel with ⟨fuel, hfuel⟩
      exact ih (live_lasting.kept.step hd hfuel)

theorem Pulls.bounds (h : Pulls d input events chunks d' input') (hbounds : input.InBounds) :
    input'.InBounds := by
  induction h with
  | here => exact hbounds
  | chunk hnext _ ih =>
      rcases hnext.exists_fuel with ⟨fuel, hfuel⟩
      exact ih (step_bounds hbounds hfuel)

-- An array takes every chunk.
theorem deliver_collected (last : Bool) (events : List Event) (chunk : Chunk) (d : Decoder c)
    (input : Cursor) (earlier : List Chunk) :
    deliverThen last events chunk ⟨d, input, earlier.toArray⟩ =
      if last then .done events ⟨⟨d, input, (earlier ++ [chunk]).toArray⟩, .ok true⟩
      else .again events ⟨d, input, (earlier ++ [chunk]).toArray⟩ := by
  have hpush : Sink.push earlier.toArray chunk = (.ok (), (earlier ++ [chunk]).toArray) := by
    rw [← List.push_toArray]
    rfl
  exact deliverThen_of_ok hpush last events

/-- What a push into an array makes of a step that it does not end with. -/
theorem takeProgress_chunk (events : List Event) (chunk : Chunk) (d : Decoder c) (input : Cursor)
    (earlier : List Chunk) :
    takeProgress events ⟨⟨d, input, earlier.toArray⟩, .ok (.chunk chunk)⟩ =
      .again events ⟨d, input, (earlier ++ [chunk]).toArray⟩ :=
  deliver_collected false events chunk d input earlier

/-- What it makes of the step that it ends with. -/
theorem takeProgress_last (events : List Event) (earlier : List Chunk)
    {turn : Turn c Cursor Unit Progress} (h : ∀ chunk, turn.result ≠ .ok (.chunk chunk)) :
    takeProgress events ⟨⟨turn.decoder, turn.input, earlier.toArray⟩, turn.result⟩ =
      .done events (turn.collected earlier) := by
  have hnone : earlier ++ [] = earlier := List.append_nil earlier
  rcases turn with ⟨⟨d, input, _⟩, error | chunk | last | _⟩
  · simp only [takeProgress, Turn.collected, answeredChunks, hnone, Except.map]
  · exact absurd rfl (h chunk)
  · cases last with
    | none =>
        simp only [takeProgress, Turn.collected, answeredChunks, Progress.chunks,
          Option.toList_none, hnone, Except.map, Progress.atEnd]
    | some chunk => exact deliver_collected true events chunk d input earlier
  · simp only [takeProgress, Turn.collected, answeredChunks, Progress.chunks, hnone, Except.map,
      Progress.atEnd]

/-- Steps that answer with chunks are the first rounds of a push. -/
theorem leads_of_pulls (h : Pulls d input events chunks d' input') :
    ∀ earlier : List Chunk, Leads pushRound (⟨d, input, earlier.toArray⟩ : Scene c Cursor _) events
      ⟨d', input', (earlier ++ chunks).toArray⟩ := by
  induction h with
  | here =>
      intro earlier
      rw [List.append_nil]
      exact .here
  | @chunk _ d' _ _ input' _ events _ chunk _ hnext _ ih =>
      intro earlier
      have hrest := ih (earlier ++ [chunk])
      rw [List.append_assoc, List.singleton_append] at hrest
      have hround := pushRound_of_next earlier.toArray hnext
      rw [takeProgress_chunk] at hround
      exact .again hround hrest

-- A round of a push is the step that a caller would have made.
theorem pushRound_of_step (hc : c.Oblivious) (hd : d.Live) (fuel : Nat) (earlier : List Chunk) :
    pushRound fuel ⟨d, input, earlier.toArray⟩ = (d.next fuel input).map fun r =>
      takeProgress r.events
        ⟨⟨r.result.decoder, r.result.input, earlier.toArray⟩, r.result.result⟩ := by
  have hplaced : ∀ input : Cursor, input.placed [] [] = input := fun input => by
    simp only [Cursor.placed, List.nil_append, List.append_nil, List.length_nil, Nat.zero_add]
  have hserve : ServesSame zeroAllocator Sink.alloc fun _ : Unit => earlier.toArray :=
    fun _ _ _ => rfl
  have hstep := step_moved [] hc hserve fuel (w := ⟨d, input, ()⟩) hd
  simp only [Scene.moved, hplaced] at hstep
  rw [pushRound_eq, hstep, map_map]
  congr 1
  funext r
  simp only [Logged.map, Turn.moved, Scene.moved, hplaced]

theorem settles_round_iff (earlier : List Chunk) (hc : c.Oblivious) (hd : d.Live)
    {o : Except Fault (PushRound c (Array Chunk))} :
    Settles (fun fuel => pushRound fuel ⟨d, input, earlier.toArray⟩) o ↔
      ∃ q, Settles (fun fuel => d.next fuel input) q ∧ o = q.map fun r =>
        takeProgress r.events
          ⟨⟨r.result.decoder, r.result.input, earlier.toArray⟩, r.result.result⟩ := by
  simp only [pushRound_of_step hc hd]
  rw [settles_map_iff (stable_next d input)]
  exact exists_congr fun q => and_congr_right fun _ => eq_comm

/-- A push is as many steps as answer with chunks, and one more. -/
theorem ends_iff_of_pulls (hc : c.Oblivious) (hd : d.Live) {earlier : List Chunk}
    {o : Except Fault (Logged Event (Turn c Cursor (Array Chunk) Bool))} :
    Ends pushRound ⟨d, input, earlier.toArray⟩ o ↔
      ∃ events chunks d' input' q, Pulls d input events chunks d' input' ∧
        Settles (fun fuel => d'.next fuel input') q ∧ IsLastStep q ∧
        o = preceded events (q.map (Logged.map (Turn.collected (earlier ++ chunks)))) := by
  constructor
  · intro h
    generalize hw : (⟨d, input, earlier.toArray⟩ : Scene c Cursor (Array Chunk)) = w at h
    induction h generalizing d input earlier with
    | fault hs =>
        subst hw
        rcases (settles_round_iff _ hc hd).mp hs with ⟨q, hq, hfault⟩
        rw [map_eq_error hfault.symm] at hq
        exact ⟨[], [], d, input, _, .here, hq, fun _ _ hok => (nomatch hok), rfl⟩
    | done hs =>
        subst hw
        rcases (settles_round_iff _ hc hd).mp hs with ⟨q, hq, hdone⟩
        rcases map_eq_ok hdone.symm with ⟨r, rfl, htake⟩
        have hlast : ∀ chunk, r.result.result ≠ .ok (.chunk chunk) := by
          intro chunk hchunk
          rw [hchunk, takeProgress_chunk] at htake
          cases htake
        rw [takeProgress_last _ _ hlast] at htake
        cases htake
        refine ⟨[], [], d, input, _, .here, hq, ?_, ?_⟩
        · rintro _ chunk ⟨⟩
          exact hlast chunk
        · rw [List.append_nil]
          rfl
    | again hs _ ih =>
        subst hw
        rcases (settles_round_iff _ hc hd).mp hs with ⟨q, hq, hagain⟩
        rcases map_eq_ok hagain.symm with ⟨r, rfl, htake⟩
        rcases r with ⟨events', ⟨⟨d', input', _⟩, result⟩⟩
        by_cases hmore : ∃ chunk, result = .ok (.chunk chunk)
        case neg =>
          rw [takeProgress_last _ _ fun chunk hchunk => hmore ⟨chunk, hchunk⟩] at htake
          cases htake
        case pos =>
          rcases hmore with ⟨chunk, rfl⟩
          rw [takeProgress_chunk] at htake
          cases htake
          have hpull : Pulls d input (events' ++ []) [chunk] d' input' := .chunk hq .here
          rcases ih (hpull.live hd) rfl with
            ⟨later, chunks, d'', input'', q, hpulls, hnext, hlast, rfl⟩
          refine ⟨_, _, d'', input'', q, .chunk hq hpulls, hnext, hlast, ?_⟩
          rw [preceded_append, List.append_assoc, List.singleton_append]
  · rintro ⟨events, chunks, d', input', q, hpulls, hnext, hlast, rfl⟩
    refine (ends_iff_of_leads (leads_of_pulls hpulls earlier)).mpr ⟨_, ?_, rfl⟩
    have hround := (settles_round_iff (earlier ++ chunks) hc (hpulls.live hd)).mpr ⟨q, hnext, rfl⟩
    cases q with
    | error fault => exact .fault hround
    | ok r =>
        simp only [Except.map] at hround
        rw [takeProgress_last _ _ (hlast r · rfl)] at hround
        exact .done hround

/-- A push that has come to a cut comes to what a push of the unread input comes to. The cut is a
    position within the input; the push after it begins at the front of its own. -/
theorem ends_iff_of_cut (hc : c.Oblivious) (hd : d.Live) (hbounds : input.InBounds)
    {o : Except Fault (Logged Event (Turn c Cursor (Array Chunk) Bool))} :
    Ends pushRound ⟨d, input, chunks.toArray⟩ o ↔
      ∃ o', Settles (fun fuel => d.push fuel input.rest (#[] : Array Chunk)) o' ∧
        o = o'.map (Logged.map (Turn.resumed input chunks)) := by
  have hscene : (⟨d, input, chunks.toArray⟩ : Scene c Cursor (Array Chunk)) =
      Scene.moved input.front (chunks.toArray ++ ·) ⟨d, .ofBytes input.rest, #[]⟩ := by
    simp only [Scene.moved, Array.append_empty,
      Cursor.placed_ofBytes hbounds (List.append_nil input.rest).symm]
  have hserve : ServesSame Sink.alloc Sink.alloc (chunks.toArray ++ · : Array Chunk → _) :=
    fun _ _ _ => rfl
  have htake : TakesSame (chunks.toArray ++ · : Array Chunk → _) := by
    intro sink chunk
    change (Except.ok (), (chunks.toArray ++ sink).push chunk) = (_, chunks.toArray ++ _)
    rw [← Array.append_push]
    rfl
  have hsame := fun fuel => push_moved input.front hc hserve htake fuel
    (w := ⟨d, .ofBytes input.rest, #[]⟩) hd
  unfold pushCursor at hsame
  rw [hscene, ← settles_run_iff stable_pushRound]
  simp only [hsame]
  exact (settles_map_iff (stable_push _)).trans
    (exists_congr fun o' => and_congr_right fun _ => eq_comm)

/-- Steps up to any cut that each answer with a chunk, and then a push of what is unread there,
    are one push; and so are those steps and the ones after them, up to the first with another
    answer. What is noted, the chunks, the answer, the decoder, the position in the input, and
    whether the call returns at all: everything is the same. -/
theorem pull_and_push (hc : c.Oblivious) (hd : Reachable d) {x : List UInt8}
    (h : Pulls d (.ofBytes x) events chunks d' input) :
    (∀ o, Settles (fun fuel => d.push fuel x (#[] : Array Chunk)) o ↔
      ∃ o', Settles (fun fuel => d'.push fuel input.rest (#[] : Array Chunk)) o' ∧
        o = preceded events (o'.map (Logged.map (Turn.resumed input chunks)))) ∧
    ∀ o, Settles (fun fuel => d.push fuel x (#[] : Array Chunk)) o ↔
      ∃ later more d'' input' q, Pulls d' input later more d'' input' ∧
        Settles (fun fuel => d''.next fuel input') q ∧ IsLastStep q ∧
        o = preceded (events ++ later)
          (q.map (Logged.map (Turn.collected (chunks ++ more)))) := by
  have hlive : d'.Live := h.live hd.live
  have hbounds : input.InBounds := h.bounds (Nat.zero_le _)
  have hpush : ∀ o, Settles (fun fuel => d.push fuel x (#[] : Array Chunk)) o ↔
      ∃ o', Ends pushRound ⟨d', input, chunks.toArray⟩ o' ∧ o = preceded events o' := fun o =>
    (settles_run_iff stable_pushRound).trans (ends_iff_of_leads (leads_of_pulls h []))
  refine ⟨fun o => ?_, fun o => ?_⟩
  · rw [hpush o]
    constructor
    · rintro ⟨o', ho', rfl⟩
      rcases (ends_iff_of_cut hc hlive hbounds).mp ho' with ⟨o, ho, rfl⟩
      exact ⟨o, ho, rfl⟩
    · rintro ⟨o', ho', rfl⟩
      exact ⟨_, (ends_iff_of_cut hc hlive hbounds).mpr ⟨o', ho', rfl⟩, rfl⟩
  · rw [hpush o]
    constructor
    · rintro ⟨o', ho', rfl⟩
      rcases (ends_iff_of_pulls hc hlive).mp ho' with
        ⟨later, more, d'', input', q, hpulls, hnext, hlast, rfl⟩
      exact ⟨later, more, d'', input', q, hpulls, hnext, hlast, (preceded_append _ _ _).symm⟩
    · rintro ⟨later, more, d'', input', q, hpulls, hnext, hlast, rfl⟩
      rw [preceded_append]
      exact ⟨_, (ends_iff_of_pulls hc hlive).mpr ⟨later, more, d'', input', q, hpulls, hnext, hlast,
        rfl⟩, rfl⟩

-- The cut is at the end of a member, with further input after it.
theorem pull_and_push_copier : ∃ (d d' e : Decoder copier) (input : Cursor)
      (events later : List Event), d = created copier () ⟨2, by decide⟩ true ∧
    Pulls d (.ofBytes [5, 6, 0, 7, 8, 9]) events [⟨0, [5, 6]⟩] d' input ∧
    d'.finished = true ∧ input.rest = [7, 8, 9] ∧
    Settles (fun fuel => d'.push fuel [7, 8, 9] (#[] : Array Chunk))
      (.ok ⟨later, ⟨⟨e, ⟨[7, 8, 9], 3⟩, #[⟨2, [7, 8]⟩, ⟨4, [9]⟩]⟩, .ok false⟩⟩) ∧
    Settles (fun fuel => d.push fuel [5, 6, 0, 7, 8, 9] (#[] : Array Chunk))
      (.ok ⟨events ++ later, ⟨⟨e, ⟨[5, 6, 0, 7, 8, 9], 6⟩,
        #[⟨0, [5, 6]⟩, ⟨2, [7, 8]⟩, ⟨4, [9]⟩]⟩, .ok false⟩⟩) := by
  have hruns : ∃ (d d' e : Decoder copier) (later : List Event),
      d = created copier () ⟨2, by decide⟩ true ∧
      d.next 1 (.ofBytes [5, 6, 0, 7, 8, 9]) = .ok ⟨[.chunkProduced 0 2],
        ⟨⟨d', ⟨[5, 6, 0, 7, 8, 9], 3⟩, ()⟩, .ok (.chunk ⟨0, [5, 6]⟩)⟩⟩ ∧ d'.finished = true ∧
      d'.push 4 [7, 8, 9] (#[] : Array Chunk) = .ok ⟨later,
        ⟨⟨e, ⟨[7, 8, 9], 3⟩, #[⟨2, [7, 8]⟩, ⟨4, [9]⟩]⟩, .ok false⟩⟩ :=
    ⟨_, _, _, _, rfl, rfl, rfl, rfl⟩
  rcases hruns with ⟨d, d', e, later, rfl, hnext, hfinished, hpush⟩
  have hpulls := Pulls.chunk ((stable_next _ _).settles hnext (ok_ne_outOfFuel _)) .here
  have hpush := (stable_push _).settles hpush (ok_ne_outOfFuel _)
  refine ⟨_, d', e, _, _, later, rfl, hpulls, hfinished, rfl, hpush, ?_⟩
  exact ((pull_and_push copier_oblivious (reachable_created () _ _) hpulls).1 _).mpr
    ⟨_, hpush, rfl⟩

end Pulling

end Decompression
