import Decompression.Proofs.Integrity
import Decompression.Proofs.Truncation
import Decompression.Sink.Writer
import Mathlib.Data.List.Permutation

/-!
# Writing a Stream

A decoder counts the bytes that it hands out, and a sink that writes them counts them as well,
to tell a chunk that is out of place. Neither knows of the other's count. They agree because
both begin at zero and go on by the same amount; and they stop to agree when the decoder starts
over, which is what the second count is for. From there on the decoder hands out a chunk at
offset zero, the sink refuses it, and the refusal makes the decoder start over again, however
often this is tried. So nothing of a second stream is ever written after the first one.

Both are about where the decoder is and what the sink is like at the same time. `Paces` says
which properties of this kind a sink keeps up chunk by chunk, and `paced_of_push` and
`paced_of_readAll` that they are kept up over whole calls. Several calls on one sink, which
each has from the one before it, are a relay.

## Main definitions

* `Writer.Steady`: A writer that never fails.
* `Paces`: What a sink is like while a decoder hands out chunks.
* `relay`: Several calls on one sink.
* `InStep`: The sink has written what the decoder has handed out.
* `Spurned`: The sink has refused everything.

## Theorems

* `paced_of_push`, `paced_of_readAll`: What is kept up chunk by chunk is kept up by calls.
* `writes_in_step`: A relay writes what is decoded, up to the first failure.
* `spurned_afresh`: A sink that has written something refuses a stream that starts over.
* `written_once`: Both, for every relay.
-/

namespace Decompression

open Decoder Loop

variable {S M : Type} {c : Codec S M}

/-! ## Keeping pace -/

section Pace

variable {σ : Type} [Sink σ]

/-- A property of a sink and of the offset at which the next chunk starts: it does not depend on
    buffers, and when a chunk is pushed it holds at the end of it, or something else holds of the
    failure. -/
structure Paces (P : Nat → σ → Prop) (Q : IoError → σ → Prop) : Prop where
  alloc : ∀ {n : Nat} {sink : σ} (offset size : Nat), P n sink →
    P n (Sink.alloc sink offset size).2
  taken : ∀ {chunk : Chunk} {sink taken : σ}, P chunk.offset sink →
    Sink.push sink chunk = (.ok (), taken) → P chunk.endOffset taken
  refused : ∀ {chunk : Chunk} {sink refused : σ} {cause : IoError}, P chunk.offset sink →
    Sink.push sink chunk = (.error cause, refused) → Q cause refused

/-- What is known of a sink after a call: the call has got to its end, the sink has refused a
    chunk, or something else has failed. -/
def Paced {α : Type} (P : Nat → σ → Prop) (Q : IoError → σ → Prop) (d : Decoder c) (sink : σ) :
    Except DecodeError α → Prop
  | .ok _ => P d.outputOffset sink
  | .error (.sink cause) => Q cause sink
  | .error _ => ∃ n, P n sink

/-- What is known before the chunk of a step is pushed. -/
def Carries (P : Nat → σ → Prop) (turn : Turn c Cursor σ Progress) : Prop :=
  match turn.result with
  | .ok progress =>
    (progress.chunks = [] ∧ P turn.decoder.outputOffset turn.sink) ∨
    ∃ chunk, progress.chunks = [chunk] ∧ P chunk.offset turn.sink ∧
      turn.decoder.outputOffset = chunk.endOffset
  | .error error => (∀ cause, error ≠ .sink cause) ∧ ∃ n, P n turn.sink

variable {P : Nat → σ → Prop} {Q : IoError → σ → Prop}

/-- A buffer for a chunk does not matter. -/
theorem Ran.paced (hpace : Paces P Q) {d entered : Decoder c} {input : Cursor} {sink served : σ}
    {events : List Event} {s : S} {buffer : List UInt8} {stepped : Stepped S}
    (h : Ran Sink.alloc d input sink events entered s buffer served stepped)
    (hd : P d.outputOffset sink) (status : Status) :
    P (entered.afterStep input stepped status).outputOffset served := by
  have hserved := hpace.alloc entered.outputOffset entered.bufferSize.toNat hd
  rw [h.serve] at hserved
  rw [afterStep_outputOffset, (entered_config h.enter).1]
  exact hserved

/-- An attempt gets to its end, or to a chunk that is to be pushed. -/
theorem carries_of_attempt (hpace : Paces P Q) {w : Scene c Cursor σ}
    (hready : w.decoder.session ≠ none) (hw : P w.decoder.outputOffset w.sink)
    {r : Round Event (Scene c Cursor σ) (Turn c Cursor σ Progress)}
    (h : attempt Sink.alloc w = .ok r) :
    r.All (fun next => P next.decoder.outputOffset next.sink) (Carries P) := by
  have hcases := attempted_of_eq hready h
  cases hcases with
  | spent _ _ => exact Or.inl ⟨rfl, hw⟩
  | refused _ _ _ _ => exact ⟨(fun _ hc => by cases hc), _, hw⟩
  | @unserved _ entered _ served _ hserve =>
      refine ⟨(fun _ hc => by cases hc), w.decoder.outputOffset, ?_⟩
      have hserved : served =
          (Sink.alloc w.sink entered.outputOffset entered.bufferSize.toNat).2 := by
        rw [← request_sink, hserve]
      rw [hserved]
      exact hpace.alloc _ _ hw
  | @failed _ _ _ _ _ _ error hran _ _ =>
      refine ⟨fun _ hc => ?_, _, hran.paced hpace hw .progress⟩
      cases error
      cases hc
  | starved hran _ _ _ _ => exact Or.inl ⟨rfl, hran.paced hpace hw .progress⟩
  | passed hran _ _ _ _ _ => exact hran.paced hpace hw .streamEnd
  | closed hran _ _ _ _ _ => exact Or.inl ⟨rfl, hran.paced hpace hw .streamEnd⟩
  | @filled _ entered _ _ _ stepped status hran _ _ _ _ _ _ =>
      have hpaced := hran.paced hpace hw status
      rw [afterStep_outputOffset] at hpaced
      refine Or.inr ⟨⟨entered.outputOffset, stepped.output.front⟩, ?_, hpaced, rfl⟩
      cases entered.isLast stepped.input status <;> rfl

theorem paced_of_deliver (hpace : Paces P Q) {last : Bool} {events : List Event} {chunk : Chunk}
    {w : Scene c Cursor σ} (hchunk : P chunk.offset w.sink)
    (hoffset : w.decoder.outputOffset = chunk.endOffset) :
    (deliverThen last events chunk w).All (fun next => P next.decoder.outputOffset next.sink)
      fun turn => Paced P Q turn.decoder turn.sink turn.result := by
  rcases hpush : Sink.push w.sink chunk with ⟨cause | _, taken⟩
  · rw [deliverThen_of_error hpush]
    exact hpace.refused hchunk hpush
  · rw [deliverThen_of_ok hpush]
    have htaken := hpace.taken hchunk hpush
    rw [← hoffset] at htaken
    cases last <;> exact htaken

/-- A round of a push keeps pace. -/
theorem paced_of_drive (hpace : Paces P Q) {w : Scene c Cursor σ}
    (hready : w.decoder.session ≠ none) (hw : P w.decoder.outputOffset w.sink)
    {r : PushRound c σ} (h : drive w = .ok r) :
    r.All (fun next => P next.decoder.outputOffset next.sink)
      fun turn => Paced P Q turn.decoder turn.sink turn.result := by
  rcases drive_cases h with ⟨events, next, hattempt, rfl⟩ | ⟨events, turn, hattempt, rfl⟩
  · exact carries_of_attempt hpace hready hw hattempt
  have hcarries : Carries P turn := carries_of_attempt hpace hready hw hattempt
  rcases turn with ⟨w', error | chunk | last | _⟩
  · rcases hcarries with ⟨hother, hn⟩
    cases error with
    | sink cause => exact absurd rfl (hother cause)
    | _ => exact hn
  · rcases hcarries with ⟨hnone, _⟩ | ⟨chunk', hchunk, hpaced, hoffset⟩
    · cases hnone
    · cases hchunk
      exact paced_of_deliver hpace hpaced hoffset
  · rcases hcarries with ⟨hnone, hpaced⟩ | ⟨chunk', hchunk, hpaced, hoffset⟩
    · cases last with
      | none => exact hpaced
      | some chunk => cases hnone
    · cases last with
      | none => cases hchunk
      | some chunk =>
          cases hchunk
          exact paced_of_deliver hpace hpaced hoffset
  · rcases hcarries with ⟨_, hpaced⟩ | ⟨chunk', hchunk, _⟩
    · exact hpaced
    · cases hchunk

/-- So does a whole push. -/
theorem paced_of_push (hpace : Paces P Q) {w : Scene c Cursor σ}
    (hw : P w.decoder.outputOffset w.sink) {fuel : Nat}
    {r : Logged Event (Turn c Cursor σ Bool)} (h : pushCursor fuel w = .ok r) :
    Paced P Q r.result.decoder r.result.sink r.result.result := by
  by_cases hready : w.decoder.session = none
  · cases push_of_not_ready hready h
    exact ⟨_, hw⟩
  rcases (ends_of_push hready h).last with ⟨earlier, w', events, hleads, hlast, _⟩
  have hw' : w'.decoder.session ≠ none ∧ P w'.decoder.outputOffset w'.sink := by
    refine hleads.keeps (I := fun w => w.decoder.session ≠ none ∧ P w.decoder.outputOffset w.sink)
      (fun hw hround => ?_) ⟨hready, hw⟩
    have hnext := paced_of_drive hpace hw.1 hw.2 hround.of_const
    exact ⟨drive_ready hw.1 hround.of_const, hnext⟩
  exact paced_of_drive hpace hw'.1 hw'.2 hlast.of_const

omit [Sink σ] in
theorem paced_of_finish (Q : IoError → σ → Prop) {d : Decoder c} {sink : σ}
    (hd : P d.outputOffset sink) : Paced P Q d.finish.decoder sink d.finish.result := by
  cases hpending : d.isPending with
  | false =>
      rw [finish_of_not_pending hpending]
      exact hd
  | true =>
      rw [finish_of_pending hpending]
      exact ⟨_, hd⟩

/-- A round of decoding from a reader keeps pace. -/
theorem paced_of_readRound (hpace : Paces P Q) {w : Scene c Reader σ}
    (hw : P w.decoder.outputOffset w.sink) {fuel : Nat} {r : ReadRound c σ}
    (h : readRound fuel w = .ok r) :
    r.All (fun next => P next.decoder.outputOffset next.sink)
      fun turn => Paced P Q turn.decoder turn.sink turn.result := by
  have hpulled := pulled_of_readRound h
  cases hpulled with
  | interrupted _ _ => exact hw
  | failed _ _ => exact ⟨_, hw⟩
  | exhausted _ => exact paced_of_finish Q hw
  | @broken d _ sink buffer q error _ _ hpush hresult =>
      have hpaced := paced_of_push hpace (w := ⟨d, .ofBytes buffer, sink⟩) hw hpush
      rw [hresult] at hpaced
      cases error <;> exact hpaced
  | @ended d _ sink buffer q _ _ hpush hresult _ =>
      have hpaced := paced_of_push hpace (w := ⟨d, .ofBytes buffer, sink⟩) hw hpush
      rwa [hresult] at hpaced
  | @onward d _ sink buffer _ q _ _ hpush hresult _ =>
      have hpaced := paced_of_push hpace (w := ⟨d, .ofBytes buffer, sink⟩) hw hpush
      rwa [hresult] at hpaced

/-- And so does decoding from a reader. -/
theorem paced_of_readAll (hpace : Paces P Q) {d : Decoder c} {sink : σ} (hd : P d.outputOffset sink)
    {fuel : Nat} {reader : Reader} {r : Logged Event (Turn c Reader σ Unit)}
    (h : d.readAll fuel reader sink = .ok r) :
    Paced P Q r.result.decoder r.result.sink r.result.result :=
  run_all (I := fun w : Scene c Reader σ => P w.decoder.outputOffset w.sink)
    (Q := fun turn => Paced P Q turn.decoder turn.sink turn.result)
    (fun _ _ hw hround => paced_of_readRound hpace hw hround) hd h

end Pace

/-! ## Relays -/

section Relays

variable {σ : Type}

/-- The call with this sink in place of its own. -/
def Call.withSink {τ : Type} (sink : σ) : Call τ → Call σ
  | .push input _ => .push input sink
  | .next input => .next input
  | .readAll reader _ => .readAll reader sink
  | .finish => .finish
  | .reset => .reset
  | .release => .release
  | .setBufferSize size => .setBufferSize size
  | .setMultipleMembers multiple => .setMultipleMembers multiple

/-- The call decodes into its sink. -/
def Call.delivers : Call σ → Bool
  | .push _ _ | .readAll _ _ => true
  | _ => false

/-- The call hands its chunk back to the caller. -/
def Call.handsBack : Call σ → Bool
  | .next _ => true
  | _ => false

/-- The sink that a call leaves behind, if it was made with this one. -/
def Report.sinkAfter (r : Report c σ) (sink : σ) : σ :=
  r.sink.elim sink Recorder.inner

/-- The reports of several calls on one sink, which each call has from the one before it. -/
def relay [Sink σ] (fuel : Nat) :
    Decoder c → σ → List (Call Unit) → Except Fault (List (Report c σ))
  | _, _, [] => .ok []
  | d, sink, call :: rest =>
    ((call.withSink sink).report fuel d).bind fun r =>
      (relay fuel r.after (r.sinkAfter sink) rest).map (r :: ·)

variable [Sink σ]

theorem relay_cons_ok {fuel : Nat} {d : Decoder c} {sink : σ} {call : Call Unit}
    {rest : List (Call Unit)} {reports : List (Report c σ)}
    (h : relay fuel d sink (call :: rest) = .ok reports) :
    ∃ r later, (call.withSink sink).report fuel d = .ok r ∧
      relay fuel r.after (r.sinkAfter sink) rest = .ok later ∧ reports = r :: later := by
  rcases bind_eq_ok h with ⟨r, hr, hrest⟩
  rcases map_eq_ok hrest with ⟨later, hlater, rfl⟩
  exact ⟨r, later, hr, hlater, rfl⟩

/-- Relays of decoders that correspond have the same reports. -/
theorem relay_alike {S₁ M₁ S₂ M₂ : Type} {c₁ : Codec S₁ M₁} {c₂ : Codec S₂ M₂}
    {L : Likeness c₁ c₂} (fuel : Nat) (calls : List (Call Unit)) {d₁ : Decoder c₁}
    {d₂ : Decoder c₂} (hd : L.Shifted 0 d₁ d₂) (sink : σ) :
    Matched (Abreast (ReportAlike L)) (relay fuel d₁ sink calls) (relay fuel d₂ sink calls) := by
  induction calls generalizing d₁ d₂ sink with
  | nil => exact .ok .nil
  | cons call rest ih =>
      refine (report_alike fuel hd (call.withSink sink)).bind fun r₁ r₂ hr => ?_
      have hsink : r₁.sinkAfter sink = r₂.sinkAfter sink := by
        rw [Report.sinkAfter, hr.sink, Report.sinkAfter]
      rw [hsink]
      exact (ih hr.record.after _).map fun _ _ hlater => .cons hr hlater

end Relays

/-! ## Writing what is decoded -/

section Steady

variable {ω : Type} [Writer ω]

/-- A writer that never fails. It may take less than it is offered, but not nothing, and it may be
    interrupted. -/
structure Writer.Steady (ω : Type) [Writer ω] : Prop where
  fails : ∀ {w w' : ω} {data : List UInt8} {cause : IoError}, write w data ≠ (.failed cause, w')
  takes : ∀ {w w' : ω} {data : List UInt8}, data ≠ [] → write w data ≠ (.took 0, w')

/-- A writer that never fails can be made to take everything. -/
theorem Writer.Steady.writeAll (h : Writer.Steady ω) (w : ω) (data : List UInt8) :
    ∃ w', Writer.writeAll w data = (.ok (), w') := by
  fun_induction Writer.writeAll w data with
  | case1 w => exact ⟨w, rfl⟩
  | case2 w b bs w' hw => exact absurd hw (h.takes (List.cons_ne_nil b bs))
  | case3 w b bs n w' hw ih => exact ih
  | case4 w b bs w' hw ih => exact ih
  | case5 w b bs cause w' hw => exact absurd hw h.fails

/-- The sink has granted everything, has written it after what was there before, and has come so
    far. -/
structure Written (before : List UInt8) (n : Nat) (k : Recorder (WriterSink ω)) : Prop where
  granted : Granted k.calls
  written : k.inner.written = n
  content : Writer.content k.inner.writer = before ++ k.bytes

-- A chunk in its place is written, if the writer does not fail.
theorem WriterSink.push_inPlace (h : Writer.Steady ω) {sink : WriterSink ω} {chunk : Chunk}
    (hplace : sink.written = chunk.offset) : ∃ writer,
    Sink.push sink chunk = (.ok (), ⟨writer, chunk.endOffset⟩) ∧
      Writer.content writer = Writer.content sink.writer ++ chunk.data := by
  rcases h.writeAll sink.writer chunk.data with ⟨writer, hwrite⟩
  refine ⟨writer, ?_, Writer.content_writeAll_ok hwrite⟩
  change WriterSink.push sink chunk = _
  rw [WriterSink.push, if_neg (fun hne => hne hplace.symm), hwrite]

theorem written_paces (h : Writer.Steady ω) (before : List UInt8) :
    Paces (Written (ω := ω) before) fun _ _ => False where
  alloc := by
    intro n k offset size hk
    refine ⟨?_, hk.written, ?_⟩
    · exact granted_alloc hk.granted rfl List.length_replicate
    · have hbytes : (Sink.alloc k offset size).2.bytes = k.bytes := Recorder.bytes_alloc rfl
      rw [hbytes]
      exact hk.content
  taken := by
    intro chunk k taken hk hpush
    rcases WriterSink.push_inPlace h hk.written with ⟨writer, hinner, hcontent⟩
    have htaken : taken.inner = ⟨writer, chunk.endOffset⟩ := by
      rw [Recorder.push_eq, hinner] at hpush
      cases hpush
      rfl
    refine ⟨granted_push hk.granted hpush, ?_, ?_⟩
    · rw [htaken]
    · rw [htaken, Recorder.bytes_push hpush, ← List.append_assoc, ← hk.content]
      exact hcontent
  refused := by
    intro chunk k refused cause hk hpush
    rcases WriterSink.push_inPlace h hk.written with ⟨writer, hinner, _⟩
    rw [Recorder.push_eq, hinner] at hpush
    cases hpush

-- Whatever has failed, it was not the sink.
theorem Paced.written {α : Type} {before : List UInt8} {d : Decoder c}
    {k : Recorder (WriterSink ω)} {result : Except DecodeError α}
    (h : Paced (Written before) (fun _ _ => False) d k result) :
    ∃ n, Written before n k ∧ ∀ a, result = .ok a → n = d.outputOffset := by
  cases result with
  | ok a => exact ⟨_, h, fun _ _ => rfl⟩
  | error error =>
      cases error with
      | sink cause => exact h.elim
      | _ => rcases h with ⟨n, hn⟩; exact ⟨n, hn, fun _ hc => by cases hc⟩

/-- After a call the sink has refused nothing and has written what the sessions have; and unless
    the call has failed, it has come as far as the decoder. -/
structure InStep (before : List UInt8) (r : Report c.observed (WriterSink ω))
    (k : Recorder (WriterSink ω)) : Prop where
  sink : r.sink = some k
  granted : Granted k.calls
  content : Writer.content k.inner.writer = before ++ r.after.output
  level : ∀ returned, r.answer = .ok returned → k.inner.written = r.after.outputOffset

/-- This holds of every call up to the first one that fails, which is included. -/
def UntilFailure {σ : Type} (holds : Report c σ → Prop) : List (Report c σ) → Prop
  | [] => True
  | r :: rest => holds r ∧ ∀ returned, r.answer = .ok returned → UntilFailure holds rest

variable {before : List UInt8}

-- What the sessions have written, and what the sink has, goes on by the same bytes.
theorem InStep.ofPaced {α : Type} {d : Decoder c.observed} {sink : WriterSink ω}
    (hcontent : Writer.content sink.writer = before ++ d.output)
    {r : Report c.observed (WriterSink ω)} {k : Recorder (WriterSink ω)}
    {result : Except DecodeError α} {f : α → Returned} (hsink : r.sink = some k)
    (hanswer : r.answer = result.map f)
    (hpaced : Paced (Written (Writer.content sink.writer)) (fun _ _ => False) r.after k result)
    {chunks : List Chunk} (hextends : Extends d r.after (startedOver result) chunks)
    (hhanded : k.handed = (Recorder.ofSink sink).handed ++ chunks) : InStep before r k := by
  rcases hpaced.written with ⟨n, hwritten, hlevel⟩
  have hbytes : k.bytes = chunks.flatMap Chunk.data := by
    rw [Recorder.bytes, hhanded]
    rfl
  refine ⟨hsink, hwritten.granted, ?_, fun returned hreturned => ?_⟩
  · rw [hwritten.content, hcontent, hextends.faithful, hbytes, List.append_assoc]
  · rcases map_eq_ok (hanswer.symm.trans hreturned) with ⟨a, ha, _⟩
    exact hwritten.written.trans (hlevel a ha)

/-- A call that begins in step ends in step. -/
theorem inStep_of_report (hc : c.Honest) (hω : Writer.Steady ω) {d : Decoder c.observed}
    (hd : Sound d) {sink : WriterSink ω} (hlevel : sink.written = d.outputOffset)
    (hcontent : Writer.content sink.writer = before ++ d.output) {call : Call Unit}
    (hcall : call.delivers = true) {fuel : Nat} {r : Report c.observed (WriterSink ω)}
    (h : (call.withSink sink).report fuel d = .ok r) :
    Sound r.after ∧ ∃ k, InStep before r k := by
  have hpace := written_paces hω (Writer.content sink.writer)
  have hbegin : Written (Writer.content sink.writer) d.outputOffset (Recorder.ofSink sink) :=
    ⟨granted_nil, hlevel, (List.append_nil _).symm⟩
  cases call with
  | push input _ =>
      rcases map_eq_ok h with ⟨q, hpush, rfl⟩
      rcases push_extends hc (w := ⟨d, .ofBytes input, Recorder.ofSink sink⟩) hd hpush with
        ⟨chunks, hextends, hhanded⟩
      have hpaced :=
        paced_of_push hpace (w := ⟨d, .ofBytes input, Recorder.ofSink sink⟩) hbegin hpush
      exact ⟨hextends.sound, _, .ofPaced hcontent rfl rfl hpaced hextends hhanded⟩
  | readAll reader _ =>
      rcases map_eq_ok h with ⟨q, hread, rfl⟩
      rcases readAll_extends hc hd hread with ⟨chunks, hextends, hhanded⟩
      have hpaced := paced_of_readAll hpace hbegin hread
      exact ⟨hextends.sound, _, .ofPaced hcontent rfl rfl hpaced hextends hhanded⟩
  | next _ => cases hcall
  | finish => cases hcall
  | reset => cases hcall
  | release => cases hcall
  | setBufferSize _ => cases hcall
  | setMultipleMembers _ => cases hcall

/-- A relay that begins in step stays in step, up to the first failure. -/
theorem writes_in_step (hc : c.Honest) (hω : Writer.Steady ω) {calls : List (Call Unit)}
    (hcalls : ∀ call ∈ calls, call.delivers = true) {d : Decoder c.observed} (hd : Sound d)
    {sink : WriterSink ω} (hlevel : sink.written = d.outputOffset)
    (hcontent : Writer.content sink.writer = before ++ d.output) {fuel : Nat}
    {reports : List (Report c.observed (WriterSink ω))}
    (h : relay fuel d sink calls = .ok reports) :
    UntilFailure (fun r => ∃ k, InStep before r k) reports := by
  induction calls generalizing d sink reports with
  | nil =>
      cases h
      exact True.intro
  | cons call rest ih =>
      rcases relay_cons_ok h with ⟨r, later, hr, hlater, rfl⟩
      rcases inStep_of_report hc hω hd hlevel hcontent (hcalls call List.mem_cons_self) hr with
        ⟨hsound, k, hk⟩
      refine ⟨⟨k, hk⟩, fun returned hreturned => ?_⟩
      have hsink : r.sinkAfter sink = k.inner := by
        rw [Report.sinkAfter, hk.sink]
        rfl
      rw [hsink] at hlater
      exact ih (fun call hmem => hcalls call (List.mem_cons_of_mem _ hmem)) hsound
        (hk.level returned hreturned) hk.content hlater

end Steady

/-! ## A stream that starts over -/

section Afresh

variable {ω : Type} [Writer ω] {sink : WriterSink ω}

/-- The sink is as it was, and has refused every chunk as out of place. -/
structure Spurns (sink : WriterSink ω) (k : Recorder (WriterSink ω)) : Prop where
  inner : k.inner = sink
  refused : ∀ {chunk : Chunk} {answer : Except IoError Unit}, .push chunk answer ∈ k.calls →
    answer = .error (WriterSink.outOfPlace chunk.offset sink.written)

/-- The call has left the sink as it was; and if it has handed it a chunk, then the sink has refused
    it and the call has failed for that. -/
def Spurned (sink : WriterSink ω) (r : Report c (WriterSink ω)) : Prop :=
  ∀ k, r.sink = some k → Spurns sink k ∧
    (k.handed ≠ [] → ∃ cause, r.answer = .error (.sink cause) ∧ cause.kind = .invalidData)

theorem WriterSink.push_outOfPlace {chunk : Chunk} (h : chunk.offset ≠ sink.written) :
    Sink.push sink chunk = (.error (WriterSink.outOfPlace chunk.offset sink.written), sink) := by
  change WriterSink.push sink chunk = _
  rw [WriterSink.push, if_pos h]

/-- While nothing is handed to a sink that has written something, the decoder is at zero; and a
    chunk is refused. -/
theorem spurns_paces (hwritten : 0 < sink.written) :
    Paces (fun n k => n = 0 ∧ Spurns sink k ∧ k.handed = [])
      fun cause k => cause.kind = .invalidData ∧ Spurns sink k where
  alloc := by
    rintro n k offset size ⟨hn, hspurns, hhanded⟩
    refine ⟨hn, ⟨hspurns.inner, fun hmem => ?_⟩, (Recorder.handed_alloc rfl).trans hhanded⟩
    rcases List.mem_append.mp hmem with hin | hlast
    · exact hspurns.refused hin
    · cases List.mem_singleton.mp hlast
  taken := by
    rintro chunk k taken ⟨hn, hspurns, _⟩ hpush
    have hplace : chunk.offset ≠ sink.written := by omega
    rw [Recorder.push_eq, hspurns.inner, WriterSink.push_outOfPlace hplace] at hpush
    cases hpush
  refused := by
    rintro chunk k refused cause ⟨hn, hspurns, _⟩ hpush
    have hplace : chunk.offset ≠ sink.written := by omega
    rw [Recorder.push_eq, hspurns.inner, WriterSink.push_outOfPlace hplace] at hpush
    cases hpush
    refine ⟨rfl, rfl, fun hmem => ?_⟩
    rcases List.mem_append.mp hmem with hin | hlast
    · exact hspurns.refused hin
    · cases List.mem_singleton.mp hlast
      rfl

omit [Writer ω] in
theorem Paced.spurned {α : Type} {d : Decoder c} {k : Recorder (WriterSink ω)}
    {result : Except DecodeError α}
    (h : Paced (fun n k => n = 0 ∧ Spurns sink k ∧ k.handed = [])
      (fun cause k => cause.kind = .invalidData ∧ Spurns sink k) d k result) :
    Spurns sink k ∧
      (k.handed ≠ [] → ∃ cause, result = .error (.sink cause) ∧ cause.kind = .invalidData) := by
  cases result with
  | ok a => exact ⟨h.2.1, fun hsome => absurd h.2.2 hsome⟩
  | error error =>
      cases error with
      | sink cause => exact ⟨h.2, fun _ => ⟨cause, rfl, h.1⟩⟩
      | _ => rcases h with ⟨_, _, hspurns, hnone⟩; exact ⟨hspurns, fun hsome => absurd hnone hsome⟩

omit [Writer ω] in
theorem Spurned.ofPaced {α : Type} {d : Decoder c} {r : Report c (WriterSink ω)}
    {k : Recorder (WriterSink ω)} {result : Except DecodeError α} {f : α → Returned}
    (hsink : r.sink = some k) (hanswer : r.answer = result.map f)
    (hpaced : Paced (fun n k => n = 0 ∧ Spurns sink k ∧ k.handed = [])
      (fun cause k => cause.kind = .invalidData ∧ Spurns sink k) d k result) : Spurned sink r := by
  intro k' hk'
  cases Option.some.inj (hsink.symm.trans hk')
  rcases hpaced.spurned with ⟨hspurns, hrefused⟩
  refine ⟨hspurns, fun hsome => ?_⟩
  rcases hrefused hsome with ⟨cause, hresult, hkind⟩
  exact ⟨cause, by rw [hanswer, hresult]; rfl, hkind⟩

/-- A call on a decoder that has started over is refused by a sink that has written something. -/
theorem spurned_of_report (hwritten : 0 < sink.written) {d : Decoder c} (hd : d.outputOffset = 0)
    {call : Call Unit} (hcall : call.handsBack = false) {fuel : Nat} {r : Report c (WriterSink ω)}
    (h : (call.withSink sink).report fuel d = .ok r) : Spurned sink r := by
  have hpace := spurns_paces hwritten
  have hbegin : d.outputOffset = 0 ∧ Spurns sink (Recorder.ofSink sink) ∧
      (Recorder.ofSink sink).handed = [] := ⟨hd, ⟨rfl, fun hmem => nomatch hmem⟩, rfl⟩
  cases call with
  | push input _ =>
      rcases map_eq_ok h with ⟨q, hpush, rfl⟩
      exact .ofPaced rfl rfl
        (paced_of_push hpace (w := ⟨d, .ofBytes input, Recorder.ofSink sink⟩) hbegin hpush)
  | readAll reader _ =>
      rcases map_eq_ok h with ⟨q, hread, rfl⟩
      exact .ofPaced rfl rfl (paced_of_readAll hpace hbegin hread)
  | next _ => cases hcall
  | finish => cases h; exact fun k hk => nomatch hk
  | reset => cases h; exact fun k hk => nomatch hk
  | release => cases h; exact fun k hk => nomatch hk
  | setBufferSize _ => cases h; exact fun k hk => nomatch hk
  | setMultipleMembers _ => cases h; exact fun k hk => nomatch hk

omit [Writer ω] in
theorem Spurned.sinkAfter {r : Report c (WriterSink ω)} (h : Spurned sink r) :
    r.sinkAfter sink = sink := by
  unfold Report.sinkAfter
  cases hk : r.sink with
  | none => rfl
  | some k => exact (h k hk).1.inner

-- What is not handed back is handed to the sink.
theorem chunks_of_report {σ : Type} [Sink σ] {d : Decoder c} {call : Call σ}
    (hcall : call.handsBack = false) {fuel : Nat} {r : Report c σ}
    (h : call.report fuel d = .ok r) : r.chunks = r.sink.elim [] Recorder.handed := by
  cases call with
  | push _ _ => rcases map_eq_ok h with ⟨q, _, rfl⟩; rfl
  | readAll _ _ => rcases map_eq_ok h with ⟨q, _, rfl⟩; rfl
  | next _ => cases hcall
  | finish => cases h; rfl
  | reset => cases h; rfl
  | release => cases h; rfl
  | setBufferSize _ => cases h; rfl
  | setMultipleMembers _ => cases h; rfl

/-- A refusal makes the decoder start over once more. -/
theorem offset_of_spurned {d : Decoder c} (hd : d.outputOffset = 0) {call : Call (WriterSink ω)}
    (hcall : call.handsBack = false) {fuel : Nat} {r : Report c (WriterSink ω)}
    (h : call.report fuel d = .ok r) (hspurned : Spurned sink r) : r.after.outputOffset = 0 := by
  rw [offset_of_report h, hd, Nat.zero_add]
  by_cases hover : r.startsOver = true
  · rw [if_pos hover]
  rw [if_neg hover, Report.length, chunks_of_report hcall h]
  cases hk : r.sink with
  | none => rfl
  | some k =>
      by_cases hnone : k.handed = []
      · rw [Option.elim, hnone]
        rfl
      · rcases (hspurned k hk).2 hnone with ⟨cause, hanswer, _⟩
        have hreset : call ≠ .reset := by
          rintro rfl
          cases h
          cases hk
        exact absurd (by rw [startsOver_of_report h hreset, hanswer]; rfl) hover

/-- However often it is tried, a sink that has written something refuses a stream that starts
    over. -/
theorem spurned_afresh (hwritten : 0 < sink.written) {calls : List (Call Unit)}
    (hcalls : ∀ call ∈ calls, call.handsBack = false) {d : Decoder c} (hd : d.outputOffset = 0)
    {fuel : Nat} {reports : List (Report c (WriterSink ω))}
    (h : relay fuel d sink calls = .ok reports) : ∀ r ∈ reports, Spurned sink r := by
  induction calls generalizing d reports with
  | nil =>
      cases h
      intro r hmem
      cases hmem
  | cons call rest ih =>
      rcases relay_cons_ok h with ⟨r, later, hr, hlater, rfl⟩
      have hcall := hcalls call List.mem_cons_self
      have hspurned := spurned_of_report hwritten hd hcall hr
      have hgiven : (call.withSink sink).handsBack = false := by
        cases call <;> exact hcall
      rw [hspurned.sinkAfter] at hlater
      intro q hmem
      rcases List.mem_cons.mp hmem with rfl | hmem
      · exact hspurned
      · exact ih (fun call hmem => hcalls call (List.mem_cons_of_mem _ hmem))
          (offset_of_spurned hd hgiven hr hspurned) hlater q hmem

end Afresh

/-! ## A slow writer -/

/-- A writer that takes one byte at a time, and is interrupted after each of them. -/
structure Trickle where
  taken : List UInt8
  -- How many interruptions are due
  pauses : Nat

def Trickle.write (w : Trickle) (data : List UInt8) : Attempt × Trickle :=
  match w.pauses with
  | 0 => (.took (min 1 data.length), ⟨w.taken ++ data.take 1, 1⟩)
  | pauses + 1 => (.interrupted, ⟨w.taken, pauses⟩)

instance : Writer Trickle where
  write := Trickle.write
  content := Trickle.taken
  patience := Trickle.pauses
  took_le := by
    rintro ⟨taken, pauses⟩ w' data count h
    cases pauses with
    | zero => cases h; exact Nat.min_le_right _ _
    | succ pauses => cases h
  content_took := by
    rintro ⟨taken, pauses⟩ w' data count h
    cases pauses with
    | zero => cases h; cases data <;> simp
    | succ pauses => cases h
  content_interrupted := by
    rintro ⟨taken, pauses⟩ w' data h
    cases pauses with
    | zero => cases h
    | succ pauses => cases h; rfl
  patience_interrupted := by
    rintro ⟨taken, pauses⟩ w' data h
    cases pauses with
    | zero => cases h
    | succ pauses => cases h; exact Nat.lt_succ_self pauses
  content_failed := by
    rintro ⟨taken, pauses⟩ w' data cause h
    cases pauses with
    | zero => cases h
    | succ pauses => cases h

theorem trickle_steady : Writer.Steady Trickle where
  fails := by
    rintro ⟨taken, pauses⟩ w' data cause h
    cases pauses with
    | zero => cases h
    | succ pauses => cases h
  takes := by
    rintro ⟨taken, pauses⟩ w' data hsome h
    have hpos := List.length_pos_iff.mpr hsome
    cases pauses with
    | zero =>
        have hnone : min 1 data.length = 0 := Attempt.took.inj (Prod.mk.inj h).1
        omega
    | succ pauses => cases h

-- Writing does not unfold, so that it has to be computed whether a relay returns.
theorem returns_of_isSome {α : Type} {o : Except Fault α} (h : o.toOption.isSome = true) :
    ∃ a, o = .ok a := by
  cases o with
  | error fault => cases h
  | ok a => exact ⟨a, rfl⟩

/-! ## Both -/

section Composition

variable {ω : Type} [Writer ω]

/-- A decoder and a sink that writes compose. Calls of a new decoder on a new sink write what is
    decoded, as long as none fails: the sink refuses nothing, it has come as far as the decoder
    after each of them, and the writer has taken what the sessions have written. And when a
    decoder has started over, for whatever reason, a sink that has written something refuses each
    chunk that any further calls hand to it, and writes nothing. -/
theorem written_once (hc : c.Honest) (hω : Writer.Steady ω) :
    (∀ {fuel : Nat} {memory : M} {size : BufferSize} {multiple : Bool} {writer : ω}
        {calls : List (Call Unit)} {reports : List (Report c (WriterSink ω))},
      (∀ call ∈ calls, call.delivers = true) →
      relay fuel (created c memory size multiple) (.ofWriter writer) calls = .ok reports →
      ∃ observed, relay fuel (created c.observed (memory, []) size multiple) (.ofWriter writer)
          calls = .ok observed ∧
        Abreast (ReportAlike (observing c)) observed reports ∧
        UntilFailure (fun r => ∃ k, InStep (Writer.content writer) r k) observed) ∧
    ∀ {σ : Type} [Sink σ] {fuel fuel' : Nat} {d : Decoder c} {call : Call σ} {r : Report c σ}
        {sink : WriterSink ω} {calls : List (Call Unit)} {reports : List (Report c (WriterSink ω))},
      call.report fuel d = .ok r → r.startsOver = true → 0 < sink.written →
      (∀ call ∈ calls, call.handsBack = false) →
      relay fuel' r.after sink calls = .ok reports → ∀ q ∈ reports, Spurned sink q := by
  constructor
  · intro fuel memory size multiple writer calls reports hcalls h
    have hcreated : (observing c).Shifted 0 (created c.observed (memory, []) size multiple)
        (created c memory size multiple) := created_alike (observing c) rfl size multiple
    have halike := relay_alike fuel calls hcreated (WriterSink.ofWriter writer)
    rw [h] at halike
    rcases halike.of_ok with ⟨observed, hobserved, hsame⟩
    have hbegin := reset_extends hc (idle c.observed (memory, []))
    have hsound : Sound (created c.observed (memory, []) size multiple) :=
      fun s hs => hbegin.sound s hs
    have houtput : (created c.observed (memory, []) size multiple).output = [] := by
      have hfresh : (idle c.observed (memory, [])).reset.decoder.output = [] := hbegin.faithful
      rw [output_eq] at hfresh ⊢
      exact hfresh
    refine ⟨observed, hobserved, hsame, writes_in_step hc hω hcalls hsound ?_ ?_ hobserved⟩
    · exact (created_offset _ _ _).symm
    · rw [houtput, List.append_nil]
      rfl
  · intro σ _ fuel fuel' d call r sink calls reports hr hover hwritten hcalls h
    have hoffset : r.after.outputOffset = 0 := by
      rw [offset_of_report hr, if_pos hover]
    exact spurned_afresh hwritten hcalls hoffset h

/-- Two members are written, and then a stream that starts over is refused. -/
theorem written_once_copier : ∃ (reports : List (Report copier (WriterSink Trickle)))
    (observed : List (Report copier.observed (WriterSink Trickle)))
    (r : Report copier (Array Chunk)) (later : List (Report copier (WriterSink Trickle))),
    relay 9 (created copier () ⟨2, by decide⟩ true) (WriterSink.ofWriter ⟨[], 1⟩)
      [.push [5, 6, 7, 0, 8] (), .readAll ⟨[.data [9, 0]]⟩ ()] = .ok reports ∧
    relay 9 (created copier.observed ((), []) ⟨2, by decide⟩ true) (WriterSink.ofWriter ⟨[], 1⟩)
      [.push [5, 6, 7, 0, 8] (), .readAll ⟨[.data [9, 0]]⟩ ()] = .ok observed ∧
    UntilFailure (fun r => ∃ k, InStep [] r k) observed ∧
    Call.reset.report 9 (created copier () ⟨2, by decide⟩ true) = .ok r ∧
    relay 9 r.after (⟨⟨[5, 6, 7, 8, 9], 0⟩, 5⟩ : WriterSink Trickle)
      [.push [5, 6] (), .finish, .push [7, 0] ()] = .ok later ∧
    ∀ q ∈ later, Spurned ⟨⟨[5, 6, 7, 8, 9], 0⟩, 5⟩ q := by
  have hreturns : ∃ reports, relay 9 (created copier () ⟨2, by decide⟩ true)
      (WriterSink.ofWriter (⟨[], 1⟩ : Trickle))
      [.push [5, 6, 7, 0, 8] (), .readAll ⟨[.data [9, 0]]⟩ ()] = .ok reports := by
    refine returns_of_isSome ?_
    cbv
  have hlater : ∃ (r : Report copier (Array Chunk))
      (later : List (Report copier (WriterSink Trickle))),
      Call.reset.report 9 (created copier () ⟨2, by decide⟩ true) = .ok r ∧
      relay 9 r.after (⟨⟨[5, 6, 7, 8, 9], 0⟩, 5⟩ : WriterSink Trickle)
        [.push [5, 6] (), .finish, .push [7, 0] ()] = .ok later := ⟨_, _, rfl, rfl⟩
  rcases hreturns with ⟨reports, hreports⟩
  rcases hlater with ⟨r, later, hreset, hlater⟩
  rcases (written_once copier_honest trickle_steady).1 (by decide) hreports with
    ⟨observed, hobserved, _, hinstep⟩
  refine ⟨reports, observed, r, later, hreports, hobserved, hinstep, hreset, hlater, ?_⟩
  exact (written_once copier_honest trickle_steady).2 hreset (by cases hreset; rfl) (by decide)
    (by decide) hlater

end Composition

end Decompression
