import Decompression.Proofs.Invariant
import Decompression.Proofs.Placement

/-!
# Reading Is Pushing

Decoding from a reader pushes what the reader shows, buffer after buffer, and takes from the
reader what the sessions have read. How much that is, is known only when a push is over, and
from a position that several sessions may have moved. `pushEach` is the plain run with
nothing of this in it: it pushes every buffer, goes on with the next one, and gives up or
stops where a push says so. The two are the same, because a push that is over and has not
ended the reading has read all of its buffer.

That it has is up to the primitive. A codec is thorough if a session that goes on without
having written anything has nothing left to read.

## Main definitions

* `Codec.Thorough`: A session that waits has read everything.
* `Decoder.pushEach`: Pushing one buffer after another.
* `Drained`: What a push leaves of its buffer.
* `Reader.uninterrupted`: A reader without its interruptions.

## Theorems

* `push_drained`: A push that goes on has read all of its buffer.
* `readAll_eq_pushEach`: Decoding from a reader is pushing its buffers.
* `pushEach_uninterrupted`: Interruptions have no effect.
* `pushEach_complete`: A reading that ends well ends between two streams.
* `reading_is_pushing`: All of it, for every reachable decoder.
-/

namespace Decompression

open Decoder Loop

variable {S M : Type} {c : Codec S M}

/-! ## Thorough codecs -/

/-- Steps only move in the input that they are given, and a step that neither writes anything nor
    ends the stream has read all of it. -/
structure Codec.Thorough (c : Codec S M) : Prop where
  keeps : ∀ {s : S} {input : Cursor} {buffer : List UInt8} {stepped : Stepped S} {status : Status},
    c.Reached s → input.InBounds → buffer ≠ [] → c.step s input (.ofBytes buffer) = stepped →
    stepped.outcome = .ok status → stepped.input.bytes = input.bytes
  exhausts : ∀ {s : S} {input : Cursor} {buffer : List UInt8} {stepped : Stepped S},
    c.Reached s → input.InBounds → buffer ≠ [] → c.step s input (.ofBytes buffer) = stepped →
    stepped.outcome = .ok .progress → stepped.output.front = [] → stepped.input.rest = []

/-! ## What a push leaves of its buffer -/

section Pushes

variable {σ : Type} [Sink σ]

/-- What a push that does not fail leaves behind. -/
structure Drained (d : Decoder c) (buffer : List UInt8) (turn : Turn c Cursor σ Bool)
    (ended : Bool) : Prop where
  bytes : turn.input.bytes = buffer
  bounds : turn.input.InBounds
  multiple : turn.decoder.multipleMembers = d.multipleMembers
  -- The stream is over if this is what was reported.
  finished : ended = true → turn.decoder.finished = true
  -- Something is left at most after the end of a single stream.
  rest : ended = false ∨ d.multipleMembers = true → turn.input.rest = []

omit [Sink σ] in
theorem Went.keeps (hc : c.Thorough) {alloc : Allocator σ} {d entered : Decoder c} {input : Cursor}
    {sink served : σ} {events : List Event} {s : S} {buffer : List UInt8} {stepped : Stepped S}
    {status : Status}
    (h : Went alloc d input sink events entered s buffer served stepped status) (hd : d.Live) :
    stepped.input.bytes = input.bytes :=
  hc.keeps (live_lasting.entered h.ran.enter hd s h.ran.session) h.ran.bounds h.ran.room h.ran.step
    h.outcome

-- A round that the push ends with.
theorem Goes.drained (hc : c.Thorough) {w : Scene c Cursor σ} {events : List Event}
    {turn : Turn c Cursor σ Bool} (h : Goes w (.done events turn)) (hlive : w.decoder.Live)
    (hbounds : w.input.InBounds) {ended : Bool} (hresult : turn.result = .ok ended) :
    Drained w.decoder w.input.bytes turn ended := by
  cases h with
  | spent hfinished hrest => exact ⟨rfl, hbounds, rfl, fun _ => hfinished, fun _ => hrest⟩
  | starved went hnothing =>
      cases hresult
      have hs := live_lasting.entered went.ran.enter hlive _ went.ran.session
      refine ⟨went.keeps hc hlive, went.read, ?_, fun hover => Bool.noConfusion hover, fun _ => ?_⟩
      · exact afterStep_multipleMembers.trans (entered_config went.ran.enter).2.1
      · exact hc.exhausts hs went.ran.bounds went.ran.room went.ran.step went.outcome hnothing
  | closed went _ hlast =>
      cases hresult
      have hmultiple := (entered_config went.ran.enter).2.1
      refine ⟨went.keeps hc hlive, went.read, hmultiple, fun _ => rfl, ?_⟩
      rintro (hover | hseveral)
      · cases hover
      · exact rest_of_last (hmultiple.trans hseveral) hlast
  | ended went _ _ _ hlast _ =>
      cases hresult
      rcases isLast_iff.mp hlast with ⟨rfl, hrest⟩
      have hmultiple := (entered_config went.ran.enter).2.1
      refine ⟨went.keeps hc hlive, went.read, hmultiple, fun _ => rfl, ?_⟩
      rintro (hover | hseveral)
      · cases hover
      · exact hrest (hmultiple.trans hseveral)

-- A round that another one follows.
theorem Goes.onward (hc : c.Thorough) {w next : Scene c Cursor σ} {events : List Event}
    (h : Goes w (.again events next)) (hlive : w.decoder.Live) :
    next.decoder.Live ∧ next.input.bytes = w.input.bytes := by
  cases h with
  | passed went _ _ =>
      exact ⟨live_lasting.ran went.ran went.outcome hlive, went.keeps hc hlive⟩
  | filled went _ _ _ _ _ =>
      exact ⟨live_lasting.moved _ (live_lasting.ran went.ran went.outcome hlive),
        went.keeps hc hlive⟩

theorem drained_of_ends (hc : c.Thorough) {w : Scene c Cursor σ}
    {r : Logged Event (Turn c Cursor σ Bool)} (h : Ends (fun _ => drive) w (.ok r))
    (hready : w.decoder.session ≠ none) (hlive : w.decoder.Live) (hbounds : w.input.InBounds)
    {ended : Bool} (hresult : r.result.result = .ok ended) :
    Drained w.decoder w.input.bytes r.result ended := by
  induction h using Ends.ok_induction with
  | done hs =>
      have hgoes := goes_of_settles hready hs fun events turn hround => by
        cases hround
        exact ⟨ended, hresult⟩
      exact hgoes.drained hc hlive hbounds hresult
  | again hs _ ih =>
      have hgoes := goes_of_settles hready hs fun events turn hround => by cases hround
      rcases hgoes.keeps with ⟨_, hbounds', hmultiple, _⟩
      rcases hgoes.onward hc hlive with ⟨hlive', hbytes⟩
      have hrest := ih (drive_ready hready hs.of_const) hlive' hbounds' hresult
      exact ⟨hrest.bytes.trans hbytes, hrest.bounds, hrest.multiple.trans hmultiple, hrest.finished,
        fun hwhole => hrest.rest (hmultiple ▸ hwhole)⟩

/-- A push that goes on has read all of its buffer. -/
theorem push_drained (hc : c.Thorough) {d : Decoder c} (hlive : d.Live) {fuel : Nat}
    {buffer : List UInt8} {sink : σ} {r : Logged Event (Turn c Cursor σ Bool)}
    (h : d.push fuel buffer sink = .ok r) {ended : Bool} (hresult : r.result.result = .ok ended) :
    Drained d buffer r.result ended := by
  have hready : d.session ≠ none := ready_of_push h hresult
  exact drained_of_ends hc (ends_of_push hready h) hready hlive (Nat.zero_le _) hresult

end Pushes

/-! ## One buffer after another -/

section Readings

variable {σ : Type} [Sink σ]

/-- A reader that still shows what has not been read of a buffer, and what comes after it. -/
def Reader.leaving (input : Cursor) (rest : List ReadItem) : Reader :=
  if input.rest = [] then ⟨rest⟩ else ⟨.data input.rest :: rest⟩

namespace Decoder

/-- Pushes one buffer after another, up to a failure or the end of a single stream, and then says
    what of the buffers has not been read: a buffer whose push failed is there as a whole, and so
    is what comes after a stream. -/
def pushEach (fuel : Nat) (d : Decoder c) (sink : σ) :
    List ReadItem → Except Fault (Logged Event (Turn c Reader σ Unit))
  | [] => .ok ⟨d.finish.events, ⟨⟨d.finish.decoder, ⟨[]⟩, sink⟩, d.finish.result⟩⟩
  | .fail cause :: rest =>
    if cause.kind = .interrupted then pushEach fuel d sink rest
    else .ok ⟨.failed (.input cause) :: d.reset.events,
      ⟨⟨d.reset.decoder, ⟨rest⟩, sink⟩, .error (.input cause)⟩⟩
  | .data bytes :: rest =>
    match d.push fuel bytes sink with
    | .error fault => .error fault
    | .ok ⟨events, ⟨⟨d, _, sink⟩, .error error⟩⟩ =>
      .ok ⟨events, ⟨⟨d, ⟨.data bytes :: rest⟩, sink⟩, .error error⟩⟩
    | .ok ⟨events, ⟨⟨d, input, sink⟩, .ok ended⟩⟩ =>
      if ended && !d.multipleMembers then
        .ok ⟨events, ⟨⟨d, .leaving input rest, sink⟩, .ok ()⟩⟩
      else preceded events (pushEach fuel d sink rest)

end Decoder

/-- What is taken from a reader after a push: as much as has been read. -/
theorem consume_read {buffer : List UInt8} {input : Cursor} (hbytes : input.bytes = buffer)
    (rest : List ReadItem) :
    (⟨.data buffer :: rest⟩ : Reader).consume input.index = .leaving input rest := by
  subst hbytes
  have hlength := input.length_rest
  unfold Cursor.room at hlength
  unfold Reader.consume Reader.leaving
  by_cases hrest : input.rest = []
  · rw [hrest, List.length_nil] at hlength
    rw [if_pos hrest]
    exact if_neg (by omega)
  · have hpos := List.length_pos_iff.mpr hrest
    rw [if_neg hrest]
    exact if_pos (by omega)

-- Whatever goes on has nothing left of the buffer.
omit [Sink σ] in
theorem Drained.whole {d : Decoder c} {buffer : List UInt8} {turn : Turn c Cursor σ Bool}
    {ended : Bool} (h : Drained d buffer turn ended)
    (hgoes : ended = false ∨ turn.decoder.multipleMembers = true) : turn.input.rest = [] := by
  rw [h.multiple] at hgoes
  exact h.rest hgoes

/-- Decoding from a reader is pushing its buffers, one round for each thing it comes to. -/
theorem run_readRound (hc : c.Thorough) (fuel : Nat) {items : List ReadItem}
    (hitems : ∀ bytes, .data bytes ∈ items → bytes ≠ []) {d : Decoder c} (hlive : d.Live)
    (sink : σ) {n : Nat} (hn : items.length < n) :
    run (readRound fuel) n ⟨d, ⟨items⟩, sink⟩ = pushEach fuel d sink items := by
  induction items generalizing d sink n with
  | nil =>
      obtain ⟨n, rfl⟩ : ∃ k, n = k + 1 := Nat.exists_eq_succ_of_ne_zero (by omega)
      exact run_succ_done (readRound_of_end rfl) n
  | cons item rest ih =>
      rw [List.length_cons] at hn
      obtain ⟨n, rfl⟩ : ∃ k, n = k + 1 := Nat.exists_eq_succ_of_ne_zero (by omega)
      have hrest : ∀ bytes, .data bytes ∈ rest → bytes ≠ [] := fun bytes hmem =>
        hitems bytes (List.mem_cons_of_mem item hmem)
      have hn' : rest.length < n := by omega
      cases item with
      | fail cause =>
          have hround : readRound fuel ⟨d, ⟨.fail cause :: rest⟩, sink⟩ =
              if cause.kind = .interrupted then .ok (.again [] ⟨d, ⟨rest⟩, sink⟩)
              else .ok (endRead (d.fail (.input cause)) ⟨rest⟩ sink) := readRound_of_fail rfl
          by_cases hkind : cause.kind = .interrupted
          · rw [if_pos hkind] at hround
            rw [run_succ_again hround, ih hrest hlive sink hn', pushEach, if_pos hkind]
            cases pushEach fuel d sink rest <;> rfl
          · rw [if_neg hkind] at hround
            rw [run_succ_done hround, pushEach, if_neg hkind]
            rfl
      | data bytes =>
          have hround : readRound fuel ⟨d, ⟨.data bytes :: rest⟩, sink⟩ =
              (d.push fuel bytes sink).map fun r =>
                takePush ⟨.data bytes :: rest⟩ r.events r.result :=
            readRound_of_data rfl (hitems bytes List.mem_cons_self)
          rw [pushEach]
          rcases hpush : d.push fuel bytes sink with
            fault | ⟨events, ⟨⟨d', input, sink'⟩, error | ended⟩⟩
          · rw [hpush] at hround
            exact run_succ_error hround n
          · rw [hpush] at hround
            exact run_succ_done hround n
          · rw [hpush] at hround
            have hdrained := push_drained hc hlive hpush rfl
            have hlive' : d'.Live :=
              live_lasting.push (w := ⟨d, .ofBytes bytes, sink⟩) hlive hpush
            simp only [Except.map, takePush, consume_read hdrained.bytes] at hround
            by_cases hlast : (ended && !d'.multipleMembers) = true
            · rw [if_pos hlast] at hround
              simp only [if_pos hlast]
              exact run_succ_done hround n
            · have hwhole : input.rest = [] := hdrained.whole (by
                rwa [Bool.not_eq_true, Bool.and_eq_false_iff, Bool.not_eq_false'] at hlast)
              rw [if_neg hlast, Reader.leaving, if_pos hwhole] at hround
              simp only [if_neg hlast]
              rw [run_succ_again hround, ih hrest hlive' sink' hn']

theorem readAll_eq_pushEach (hc : c.Thorough) {d : Decoder c} (hlive : d.Live) {reader : Reader}
    (hbuffers : ∀ bytes, .data bytes ∈ reader.items → bytes ≠ []) (sink : σ) {fuel : Nat}
    (hfuel : reader.items.length < fuel) :
    d.readAll fuel reader sink = pushEach fuel d sink reader.items :=
  run_readRound hc fuel hbuffers hlive sink hfuel

/-! ## Interruptions -/

/-- The reader without its interruptions. -/
def Reader.uninterrupted (r : Reader) : Reader :=
  ⟨r.items.filter fun item => !item.interrupts⟩

theorem leaving_uninterrupted (input : Cursor) (rest : List ReadItem) :
    (Reader.leaving input rest).uninterrupted =
      .leaving input (Reader.uninterrupted ⟨rest⟩).items := by
  unfold Reader.leaving
  by_cases hrest : input.rest = []
  · rw [if_pos hrest, if_pos hrest]
  · rw [if_neg hrest, if_neg hrest]
    rfl

/-- What is left behind, with a reader that is not interrupted any more. -/
def uninterruptedTurn (r : Logged Event (Turn c Reader σ Unit)) :
    Logged Event (Turn c Reader σ Unit) :=
  ⟨r.events, { r.result with input := r.result.input.uninterrupted }⟩

omit [Sink σ] in
theorem preceded_uninterrupted (events : List Event)
    (o : Except Fault (Logged Event (Turn c Reader σ Unit))) :
    (preceded events o).map uninterruptedTurn = preceded events (o.map uninterruptedTurn) := by
  cases o <;> rfl

/-- Interruptions have no effect but that they are gone. -/
theorem pushEach_uninterrupted (fuel : Nat) (items : List ReadItem) (d : Decoder c) (sink : σ) :
    pushEach fuel d sink (Reader.uninterrupted ⟨items⟩).items =
      (pushEach fuel d sink items).map uninterruptedTurn := by
  induction items generalizing d sink with
  | nil => rfl
  | cons item rest ih =>
      have hcons : (Reader.uninterrupted ⟨item :: rest⟩).items =
          if item.interrupts then (Reader.uninterrupted ⟨rest⟩).items
          else item :: (Reader.uninterrupted ⟨rest⟩).items := by
        simp only [Reader.uninterrupted, List.filter_cons]
        cases item.interrupts <;> rfl
      rw [hcons]
      cases item with
      | fail cause =>
          by_cases hkind : cause.kind = .interrupted
          · simp only [ReadItem.interrupts, hkind, decide_true, if_true, pushEach]
            exact ih d sink
          · simp only [ReadItem.interrupts, hkind, decide_false, Bool.false_eq_true, if_false,
              pushEach]
            rfl
      | data bytes =>
          simp only [ReadItem.interrupts, Bool.false_eq_true, if_false, pushEach]
          rcases d.push fuel bytes sink with
            fault | ⟨events, ⟨⟨d', input, sink'⟩, error | ended⟩⟩
          · rfl
          · simp only [Except.map, uninterruptedTurn, Reader.uninterrupted, List.filter_cons,
              ReadItem.interrupts, Bool.not_false, if_true]
          · by_cases hlast : (ended && !d'.multipleMembers) = true
            · simp only [if_pos hlast, Except.map, uninterruptedTurn, leaving_uninterrupted]
            · simp only [if_neg hlast]
              rw [preceded_uninterrupted, ih]

/-! ## How a reading ends -/

/-- A reading that ends well ends between two streams, and for several members it has read
    everything. -/
theorem pushEach_complete (hc : c.Thorough) {fuel : Nat} {items : List ReadItem} {d : Decoder c}
    (hlive : d.Live) {sink : σ} {r : Logged Event (Turn c Reader σ Unit)}
    (h : pushEach fuel d sink items = .ok r) (hresult : r.result.result = .ok ()) :
    r.result.decoder.isPending = false ∧
      (d.multipleMembers = true → r.result.input.items = []) := by
  induction items generalizing d sink r with
  | nil =>
      cases h
      cases hpending : d.isPending with
      | true =>
          rw [finish_of_pending hpending] at hresult
          cases hresult
      | false =>
          rw [finish_of_not_pending hpending]
          exact ⟨hpending, fun _ => rfl⟩
  | cons item rest ih =>
      cases item with
      | fail cause =>
          rw [pushEach] at h
          by_cases hkind : cause.kind = .interrupted
          · rw [if_pos hkind] at h
            exact ih hlive h hresult
          · rw [if_neg hkind] at h
            cases h
            cases hresult
      | data bytes =>
          rw [pushEach] at h
          rcases hpush : d.push fuel bytes sink with
            fault | ⟨events, ⟨⟨d', input, sink'⟩, error | ended⟩⟩
          · rw [hpush] at h
            cases h
          · rw [hpush] at h
            cases h
            cases hresult
          · rw [hpush] at h
            have hdrained := push_drained hc hlive hpush rfl
            have hmultiple : d'.multipleMembers = d.multipleMembers := hdrained.multiple
            by_cases hlast : (ended && !d'.multipleMembers) = true
            · simp only [if_pos hlast] at h
              cases h
              rw [Bool.and_eq_true, Bool.not_eq_true', hmultiple] at hlast
              refine ⟨?_, fun hseveral => ?_⟩
              · have hfinished : d'.finished = true := hdrained.finished hlast.1
                simp only [isPending, hfinished, Bool.not_true, Bool.and_false]
              · rw [hlast.2] at hseveral
                cases hseveral
            · simp only [if_neg hlast] at h
              rw [preceded_eq_map] at h
              rcases map_eq_ok h with ⟨r', hr', rfl⟩
              have hlive' : d'.Live :=
                live_lasting.push (w := ⟨d, .ofBytes bytes, sink⟩) hlive hpush
              rcases ih hlive' hr' hresult with ⟨hpending, hread⟩
              exact ⟨hpending, fun hseveral => hread (hmultiple.trans hseveral)⟩

theorem Decoder.Reachable.push {d : Decoder c} (hd : Reachable d) {fuel : Nat}
    {buffer : List UInt8} {sink : σ} {r : Logged Event (Turn c Cursor σ Bool)}
    (h : d.push fuel buffer sink = .ok r) : Reachable r.result.decoder := by
  rcases push_recorded h with ⟨r', hr', _, hdecoder, _⟩
  have hrun : (Call.push buffer sink).run fuel d = .ok (Record.ofTurn d r') := by
    rw [Call.run, hr']
    rfl
  rw [← hdecoder]
  exact hd.call hrun

/-- If every push comes to an end, then so do the pushes of all buffers. -/
theorem exists_settles_pushEach
    (hends : ∀ d : Decoder c, Reachable d → ∀ buffer (sink : σ),
      ∃ o, Settles (fun fuel => d.push fuel buffer sink) o)
    (items : List ReadItem) {d : Decoder c} (hd : Reachable d) (sink : σ) :
    ∃ o, Settles (fun fuel => pushEach fuel d sink items) o := by
  induction items generalizing d sink with
  | nil => exact ⟨_, settles_of_ok rfl⟩
  | cons item rest ih =>
      cases item with
      | fail cause =>
          by_cases hkind : cause.kind = .interrupted
          · simp only [pushEach, if_pos hkind]
            exact ih hd sink
          · simp only [pushEach, if_neg hkind]
            exact ⟨_, settles_of_ok rfl⟩
      | data bytes =>
          rcases hends d hd bytes sink with ⟨o, hne, n, hn⟩
          -- From `n` on the push has its outcome, so only what comes after it matters.
          have hpush : ∀ fuel, n ≤ fuel → d.push fuel bytes sink = o := hn
          simp only [pushEach]
          rcases o with fault | ⟨events, ⟨⟨d', input, sink'⟩, error | ended⟩⟩
          · have hfault : fault ≠ .outOfFuel := fun hc => hne (by rw [hc])
            refine ⟨.error fault, fun hc => hfault (Except.error.inj hc), n, fun fuel hle => ?_⟩
            simp only [hpush fuel hle]
          · refine ⟨.ok ⟨events, ⟨⟨d', ⟨.data bytes :: rest⟩, sink'⟩, .error error⟩⟩,
              ok_ne_outOfFuel _, n, fun fuel hle => ?_⟩
            simp only [hpush fuel hle]
          · by_cases hlast : (ended && !d'.multipleMembers) = true
            · refine ⟨.ok ⟨events, ⟨⟨d', .leaving input rest, sink'⟩, .ok ()⟩⟩,
                ok_ne_outOfFuel _, n, fun fuel hle => ?_⟩
              simp only [hpush fuel hle, if_pos hlast]
            · have hd' : Reachable d' := hd.push (hpush n (Nat.le_refl n))
              rcases ih hd' sink' with ⟨o, hne', m, hm⟩
              refine ⟨preceded events o, fun hc => hne' (preceded_eq_outOfFuel_iff.mp hc),
                max n m, fun fuel hle => ?_⟩
              have hrest : pushEach fuel d' sink' rest = o := hm fuel (by omega)
              simp only [hpush fuel (by omega), if_neg hlast, hrest]

/-- Decoding from a reader is pushing what the reader shows, one buffer after another, and what
    the reader still shows in the end is what the sessions have not read. If every push comes to
    an end then so does it; being interrupted makes no difference; and where it ends well no
    stream is left half read, nor, for several members, anything at all. -/
theorem reading_is_pushing (hc : c.Thorough) {d : Decoder c} (hd : Reachable d) {reader : Reader}
    (hbuffers : ∀ bytes, .data bytes ∈ reader.items → bytes ≠ []) (sink : σ)
    (hends : ∀ d : Decoder c, Reachable d → ∀ buffer (sink : σ),
      ∃ o, Settles (fun fuel => d.push fuel buffer sink) o) :
    (∃ o, Settles (fun fuel => d.readAll fuel reader sink) o ∧
      Settles (fun fuel => pushEach fuel d sink reader.items) o) ∧
    ∀ fuel, reader.items.length < fuel →
      d.readAll fuel reader sink = pushEach fuel d sink reader.items ∧
      d.readAll fuel reader.uninterrupted sink =
        (d.readAll fuel reader sink).map uninterruptedTurn ∧
      ∀ r, d.readAll fuel reader sink = .ok r → r.result.result = .ok () →
        r.result.decoder.isPending = false ∧
          (d.multipleMembers = true → r.result.input.items = []) := by
  refine ⟨?_, fun fuel hfuel => ?_⟩
  · rcases exists_settles_pushEach hends reader.items hd sink with ⟨o, hne, n, hn⟩
    refine ⟨o, ⟨hne, n + reader.items.length + 1, fun fuel hle => ?_⟩, hne, n, hn⟩
    dsimp only
    rw [readAll_eq_pushEach hc hd.live hbuffers sink (by omega)]
    exact hn fuel (by omega)
  · have heq := readAll_eq_pushEach hc hd.live hbuffers sink hfuel
    refine ⟨heq, ?_, fun r hr hresult => ?_⟩
    · have hfewer : reader.uninterrupted.items.length < fuel :=
        Nat.lt_of_le_of_lt (List.length_filter_le _ _) hfuel
      have hbuffers' : ∀ bytes, .data bytes ∈ reader.uninterrupted.items → bytes ≠ [] :=
        fun bytes hmem => hbuffers bytes (List.mem_filter.mp hmem).1
      rw [heq, readAll_eq_pushEach hc hd.live hbuffers' sink hfewer]
      exact pushEach_uninterrupted fuel reader.items d sink
    · exact pushEach_complete hc hd.live (heq ▸ hr) hresult

end Readings

/-! ## Reading with a codec that copies -/

section Copying

theorem copier_thorough : copier.Thorough where
  keeps := by
    rintro ⟨total, ended⟩ input buffer stepped status _ _ hroom hstep _
    cases ended with
    | true =>
        subst hstep
        rfl
    | false =>
        rcases copied hstep with ⟨_, _, _, _, _, ⟨_, _, _, hinput⟩ | ⟨_, _, _, hinput, _⟩⟩
        · rw [hinput]
          rfl
        · rw [hinput]
          rfl
  exhausts := by
    rintro ⟨total, ended⟩ input buffer stepped _ _ hroom hstep houtcome hnothing
    cases ended with
    | true =>
        subst hstep
        cases houtcome
    | false =>
        rcases copied hstep with
          ⟨data, _, _, hfront, _, ⟨hover, _⟩ | ⟨_, _, _, _, hexhausts⟩⟩
        · rw [hover] at houtcome
          cases houtcome
        · refine hexhausts ?_
          rw [← hfront, hnothing]
          exact List.length_pos_iff.mpr hroom

variable {σ : Type} [Sink σ]

/-- What is still to be read, and whether the session may report its end without reading. -/
def copyingLeft (w : Scene copier Cursor σ) : Nat :=
  2 * w.input.rest.length + if w.decoder.finished then 0 else 1

-- A session that has reported its end is not run again for several members.
theorem fresh_of_entered {d entered : Decoder copier} {input : Cursor} {events : List Event}
    (h : Entered d input events entered) (hfinished : d.finished = true)
    (hmultiple : entered.multipleMembers = true) {s : Nat × Bool} (hs : entered.session = some s) :
    s.2 = false := by
  cases h with
  | stay hstay =>
      rw [(hstay hfinished).2] at hmultiple
      cases hmultiple
  | member _ _ _ hstart =>
      cases hs
      cases hstart
      rfl

theorem copyingLeft_lt {w next : Scene copier Cursor σ} {events : List Event}
    (h : Goes w (.again events next)) : copyingLeft next < copyingLeft w := by
  unfold copyingLeft
  cases h with
  | @passed events entered s buffer served stepped went hnothing hfurther =>
      have hmultiple : entered.multipleMembers = true := (hasFurtherMember_iff.mp hfurther).1
      have hover : (entered.afterStep w.input stepped .streamEnd).finished = true := rfl
      rw [hover, if_pos rfl]
      rcases s with ⟨total, ended⟩
      cases ended with
      | true =>
          have hrunning : w.decoder.finished = false := by
            cases hfinished : w.decoder.finished with
            | false => rfl
            | true => cases fresh_of_entered went.ran.enter hfinished hmultiple went.ran.session
          rw [← went.ran.step, hrunning]
          exact Nat.lt_succ_self _
      | false =>
          rcases copied went.ran.step with
            ⟨data, _, _, _, _, ⟨_, _, hrest, _⟩ | ⟨hgoes, _⟩⟩
          · rw [hrest, List.length_append, List.length_cons]
            dsimp only
            omega
          · cases hgoes.symm.trans went.outcome
  | @filled events entered s buffer served taken stepped status went hsomething _ _ _ _ =>
      rcases s with ⟨total, ended⟩
      cases ended with
      | true =>
          rw [← went.ran.step] at hsomething
          exact absurd List.take_zero hsomething
      | false =>
          rcases copied went.ran.step with ⟨data, _, _, hfront, _, hcases⟩
          have hdata : 0 < data.length := List.length_pos_iff.mpr (hfront ▸ hsomething)
          have hread : data.length + stepped.input.rest.length ≤ w.input.rest.length := by
            rcases hcases with ⟨_, _, hrest, _⟩ | ⟨_, _, hrest, _, _⟩
            · rw [hrest, List.length_append, List.length_cons]
              omega
            · exact Nat.le_of_eq (by rw [hrest, List.length_append])
          dsimp only
          split <;> split <;> omega

/-- Pushes into a codec that copies come to an end. -/
theorem copier_push_settles (d : Decoder copier) (buffer : List UInt8) (sink : σ) :
    ∃ o, Settles (fun fuel => d.push fuel buffer sink) o := by
  by_cases hready : d.session = none
  · exact ⟨_, settles_push_of_not_ready hready⟩
  · have hends : ∃ o, Ends (fun _ => drive) ⟨d, .ofBytes buffer, sink⟩ o := by
      refine exists_ends (I := fun w : Scene copier Cursor σ => w.decoder.session ≠ none)
        copyingLeft exists_settles_drive (fun hw hround => ?_) hready
      have hgoes := goes_of_settles hw hround fun events turn hr => by cases hr
      exact ⟨drive_ready hw hround.of_const, copyingLeft_lt hgoes⟩
    rcases hends with ⟨o, ho⟩
    exact ⟨o, (settles_push_iff hready).mpr ho⟩

/-- A stream in two buffers with an interruption between them, and bytes after the stream. -/
theorem reading_is_pushing_copier :
    (∃ o, Settles (fun fuel => (create copier ()).decoder.readAll fuel
        ⟨[.data [5], .fail ⟨.interrupted, "again"⟩, .data [6, 0, 7]]⟩ (#[] : Array Chunk)) o ∧
      Settles (fun fuel => (create copier ()).decoder.pushEach fuel (#[] : Array Chunk)
        [.data [5], .fail ⟨.interrupted, "again"⟩, .data [6, 0, 7]]) o) ∧
    ∀ fuel, 3 < fuel → (create copier ()).decoder.readAll fuel
        ⟨[.data [5], .fail ⟨.interrupted, "again"⟩, .data [6, 0, 7]]⟩ (#[] : Array Chunk) =
      (create copier ()).decoder.pushEach fuel #[]
        [.data [5], .fail ⟨.interrupted, "again"⟩, .data [6, 0, 7]] := by
  have hrun : Call.reset.run (σ := Array Chunk) 0 (idle copier ()) =
      .ok (.ofOutcome (idle copier ()) (create copier ()) true) := rfl
  have hreachable : Reachable (create copier ()).decoder := (Reachable.idle ()).call hrun
  have hbuffers : ∀ bytes, .data bytes ∈
      ([.data [5], .fail ⟨.interrupted, "again"⟩, .data [6, 0, 7]] : List ReadItem) →
      bytes ≠ [] := by
    intro bytes hmem
    simp only [List.mem_cons, ReadItem.data.injEq, reduceCtorEq, List.not_mem_nil, false_or,
      or_false] at hmem
    rcases hmem with rfl | rfl
    · exact List.cons_ne_nil _ _
    · exact List.cons_ne_nil _ _
  have hreading := reading_is_pushing copier_thorough hreachable hbuffers (#[] : Array Chunk)
    fun d _ => copier_push_settles d
  exact ⟨hreading.1, fun fuel hfuel => (hreading.2 fuel hfuel).1⟩

end Copying

end Decompression
