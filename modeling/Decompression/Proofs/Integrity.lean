import Decompression.Proofs.History

/-!
# No Byte Lost

Whatever is done with a decoder, the chunks it hands out between two resets are the bytes
that its sessions have written, in order and without a gap. Three counts have to be kept
in step for that: the offset of the decoder, the offset at which the current member began,
and what the session has counted itself. `Sound` says how they are.

What one round of any loop of the decoder does is said by `Extends`: some chunks, which go
on where the decoder was, are handed out, and their data is what has been written in the
meantime. Rounds add up, and so do calls; a reset is the only way to begin again at zero,
and it comes last in its call.

## Main definitions

* `Contiguous`: Chunks that go on from an offset without a gap.
* `Sound`: The counts of a decoder fit.
* `Extends`: What is done to a decoder on the way, and what it hands out.
* `epochs`: The stretches of a history between two resets.
* `Intact`: The chunks of a stretch are what was written in it.

## Theorems

* `attempt_extends`: One attempt.
* `run_extends`: One call.
* `history_intact`: Every epoch of every history is intact.
-/

namespace Decompression

open Decoder Loop

/-! ## Chunks without gaps -/

/-- The chunks go on from an offset, each where the one before it ended. -/
def Contiguous (offset : Nat) : List Chunk → Prop
  | [] => True
  | chunk :: rest => chunk.offset = offset ∧ Contiguous chunk.endOffset rest

theorem contiguous_append {as bs : List Chunk} :
    ∀ {offset : Nat}, Contiguous offset (as ++ bs) ↔
      Contiguous offset as ∧ Contiguous (offset + (as.flatMap Chunk.data).length) bs := by
  induction as with
  | nil =>
      intro offset
      simp only [List.nil_append, Contiguous, true_and, List.flatMap_nil, List.length_nil,
        Nat.add_zero]
  | cons chunk rest ih =>
      intro offset
      have hend : chunk.offset = offset → chunk.endOffset + (rest.flatMap Chunk.data).length =
          offset + ((chunk :: rest).flatMap Chunk.data).length := by
        intro hoffset
        rw [List.flatMap_cons, List.length_append, Chunk.endOffset, Chunk.length, hoffset]
        omega
      simp only [List.cons_append, Contiguous, ih, and_assoc]
      constructor
      · rintro ⟨hoffset, hrest, hbs⟩
        exact ⟨hoffset, hrest, hend hoffset ▸ hbs⟩
      · rintro ⟨hoffset, hrest, hbs⟩
        exact ⟨hoffset, hrest, (hend hoffset).symm ▸ hbs⟩

variable {S M : Type} {c : Codec S M}

/-! ## Sound decoders -/

/-- The session counts on from where the current member began, and has come as far as the
    decoder has. -/
def Sound (d : Decoder c.observed) : Prop :=
  ∀ s, d.session = some s → c.Reached s.1 ∧ d.memberBase + c.totalOut s.1 = d.outputOffset

/-- What is done to a decoder: it hands out chunks and is sound afterwards, at the end of
    them or, if it starts over, at zero. -/
structure Extends (d d' : Decoder c.observed) (afresh : Bool) (chunks : List Chunk) : Prop where
  sound : Sound d'
  size : d'.bufferSize = d.bufferSize
  contiguous : Contiguous d.outputOffset chunks
  filled : ∀ chunk ∈ chunks, chunk.data ≠ [] ∧ chunk.length ≤ d.bufferSize.toNat
  faithful : d'.output = d.output ++ chunks.flatMap Chunk.data
  offset : d'.outputOffset =
    if afresh then 0 else d.outputOffset + (chunks.flatMap Chunk.data).length

namespace Extends

variable {d d' d'' : Decoder c.observed} {afresh : Bool} {as bs : List Chunk}

-- Nothing is handed out where nothing is written.
theorem of_nothing (hsound : Sound d') (hsize : d'.bufferSize = d.bufferSize)
    (houtput : d'.output = d.output)
    (hoffset : d'.outputOffset = if afresh then 0 else d.outputOffset) :
    Extends d d' afresh [] where
  sound := hsound
  size := hsize
  contiguous := True.intro
  filled := fun _ hc => absurd hc List.not_mem_nil
  faithful := by rw [houtput, List.flatMap_nil, List.append_nil]
  offset := hoffset

theorem refl (h : Sound d) : Extends d d false [] :=
  .of_nothing h rfl rfl rfl

theorem trans (h : Extends d d' false as) (h' : Extends d' d'' afresh bs) :
    Extends d d'' afresh (as ++ bs) where
  sound := h'.sound
  size := h'.size.trans h.size
  contiguous := contiguous_append.mpr ⟨h.contiguous, by
    have hoffset := h.offset
    rw [if_neg Bool.false_ne_true] at hoffset
    rw [← hoffset]
    exact h'.contiguous⟩
  filled := by
    intro chunk hchunk
    rcases List.mem_append.mp hchunk with hin | hin
    · exact h.filled chunk hin
    · rw [← h.size]
      exact h'.filled chunk hin
  faithful := by
    rw [h'.faithful, h.faithful, List.flatMap_append, List.append_assoc]
  offset := by
    have hoffset := h.offset
    rw [if_neg Bool.false_ne_true] at hoffset
    rw [h'.offset, hoffset, List.flatMap_append, List.length_append, Nat.add_assoc]

end Extends

/-! ## Sessions started -/

section Restarts

variable {d : Decoder c.observed}

/-- A fresh session at an offset: the decoder is sound, and nothing has been written for it. -/
theorem started_sound (hc : c.Honest) (offset : Nat) {s : S × List UInt8} {memory : M × List UInt8}
    (h : c.observed.start d.retire = (.ok s, memory)) :
    Sound (d.startedAt offset s memory) ∧ (d.startedAt offset s memory).output = d.output := by
  rcases observed_start_inv h with ⟨memory', hstart, hwrote, hmemory⟩
  constructor
  · intro s' hs'
    have hs : s' = s := (Option.some.inj hs').symm
    subst hs
    refine ⟨.fresh hstart, ?_⟩
    rw [hc.fresh hstart]
    rfl
  · rw [output_of_some (s := s) rfl, hwrote, List.append_nil]
    exact hmemory

theorem refused_sound (offset : Nat) {cause : IoError} {memory : M × List UInt8}
    (h : c.observed.start d.retire = (.error cause, memory)) :
    Sound (d.refusedAt offset memory) ∧ (d.refusedAt offset memory).output = d.output := by
  refine ⟨(fun s hs => by cases hs), ?_⟩
  rw [output_of_none rfl]
  exact observed_start_error_inv h

-- A decoder that is reset starts over, be there a session or not.
theorem reset_extends (hc : c.Honest) (d : Decoder c.observed) :
    Extends d d.reset.decoder true [] := by
  rcases reset_cases d with ⟨s, memory, hstart, hreset⟩ | ⟨cause, memory, hstart, hreset⟩
  · rcases started_sound hc 0 hstart with ⟨hsound, houtput⟩
    rw [hreset]
    exact .of_nothing hsound rfl houtput rfl
  · rcases refused_sound 0 hstart with ⟨hsound, houtput⟩
    rw [hreset]
    exact .of_nothing hsound rfl houtput rfl

-- A further member begins where the decoder is.
theorem entered_extends (hc : c.Honest) (hd : Sound d) {input : Cursor} {events : List Event}
    {entered : Decoder c.observed} (h : Entered d input events entered) :
    Extends d entered false [] := by
  cases h with
  | stay _ => exact .refl hd
  | member _ _ _ hstart =>
      rcases started_sound hc d.outputOffset hstart with ⟨hsound, houtput⟩
      exact .of_nothing hsound rfl houtput rfl

-- No further member could be started.
theorem refused_extends {cause : IoError} {memory : M × List UInt8}
    (h : c.observed.start d.retire = (.error cause, memory)) :
    Extends d (d.refusedAt d.outputOffset memory) false [] := by
  rcases refused_sound d.outputOffset h with ⟨hsound, houtput⟩
  exact .of_nothing hsound rfl houtput rfl

end Restarts

/-! ## One attempt -/

section Attempts

variable {d : Decoder c.observed} {input : Cursor} {buffer : List UInt8} {s : S × List UInt8}
  {stepped : Stepped (S × List UInt8)} {status : Status}

-- A successful step: what is in front of the output cursor has been written, and counted.
theorem afterStep_extends (hc : c.Honest) (hd : Sound d) (hs : d.session = some s)
    (hbounds : input.InBounds) (hroom : buffer ≠ []) (hsize : buffer.length = d.bufferSize.toNat)
    (hstep : c.observed.step s input (.ofBytes buffer) = stepped)
    (houtcome : stepped.outcome = .ok status) {chunks : List Chunk}
    (hchunks : (stepped.output.front = [] ∧ chunks = []) ∨
      (stepped.output.front ≠ [] ∧ chunks = [⟨d.outputOffset, stepped.output.front⟩])) :
    Extends d { d.afterStep input stepped status with
      outputOffset := d.outputOffset + stepped.output.front.length } false chunks := by
  rcases hd s hs with ⟨hreached, hcount⟩
  rcases observed_step_ok hstep houtcome with ⟨r, hr, hrok, houtput, hsession⟩
  have honest := hc.step hreached hbounds hroom hr hrok
  have hlength := honest.length
  rw [houtput] at hlength
  have hdata : chunks.flatMap Chunk.data = stepped.output.front := by
    rcases hchunks with ⟨hempty, rfl⟩ | ⟨_, rfl⟩
    · exact hempty.symm
    · exact List.flatMap_singleton _ _
  have hafter : (d.afterStep input stepped status).session = some stepped.session :=
    afterStep_session
  constructor
  · -- The session's own count and the offset grow by the same amount.
    intro s' hs'
    have hs'' : s' = stepped.session := (Option.some.inj (hafter.symm.trans hs')).symm
    rw [hs'', hsession]
    refine ⟨.step hreached hbounds hroom hr hrok, ?_⟩
    have htotal := honest.count
    rw [houtput] at htotal
    simp only [afterStep_memberBase, htotal, hlength]
    omega
  · exact afterStep_bufferSize
  · rcases hchunks with ⟨_, rfl⟩ | ⟨_, rfl⟩
    · exact True.intro
    · exact ⟨rfl, True.intro⟩
  · intro chunk hchunk
    rcases hchunks with ⟨_, rfl⟩ | ⟨hsome, rfl⟩
    · cases hchunk
    · rw [List.mem_singleton] at hchunk
      subst hchunk
      refine ⟨hsome, ?_⟩
      -- The chunk is what is in front of the cursor, which stays in the buffer.
      have hwithin := honest.bounds
      unfold Cursor.InBounds at hwithin
      rw [honest.size, hsize, houtput] at hwithin
      rw [Chunk.length, hlength]
      exact hwithin
  · have hmoved : ({ d.afterStep input stepped status with
        outputOffset := d.outputOffset + stepped.output.front.length } :
          Decoder c.observed).session = some stepped.session := hafter
    rw [output_of_some hmoved, output_of_some hs, hdata, hsession, List.append_assoc, ← houtput,
      honest.bytes]
    simp only [afterStep_memory]
  · rw [hdata]
    rfl

variable {σ : Type} {alloc : Allocator σ} {sink : σ}

-- A session that is run, seen from the decoder before.
theorem ran_extends (hc : c.Honest) (hd : Sound d) {events : List Event}
    {entered : Decoder c.observed} {served : σ}
    (hran : Ran alloc d input sink events entered s buffer served stepped)
    (houtcome : stepped.outcome = .ok status) {chunks : List Chunk}
    (hchunks : (stepped.output.front = [] ∧ chunks = []) ∨
      (stepped.output.front ≠ [] ∧ chunks = [⟨entered.outputOffset, stepped.output.front⟩])) :
    Extends d { entered.afterStep input stepped status with
      outputOffset := entered.outputOffset + stepped.output.front.length } false chunks := by
  have hentered := entered_extends hc hd hran.enter
  exact hentered.trans (afterStep_extends hc hentered.sound hran.session hran.bounds hran.room
    hran.size hran.step houtcome hchunks)

-- Nothing was written, so the offset stays.
theorem ran_extends_of_nothing (hc : c.Honest) (hd : Sound d) {events : List Event}
    {entered : Decoder c.observed} {served : σ}
    (hran : Ran alloc d input sink events entered s buffer served stepped)
    (houtcome : stepped.outcome = .ok status) (hnothing : stepped.output.front = []) :
    Extends d (entered.afterStep input stepped status) false [] := by
  have h := ran_extends hc hd hran houtcome (Or.inl ⟨hnothing, rfl⟩)
  rw [hnothing] at h
  have hsame : ({ entered.afterStep input stepped status with
      outputOffset := entered.outputOffset + ([] : List UInt8).length } : Decoder c.observed) =
      entered.afterStep input stepped status := by
    cases status <;> rfl
  rwa [hsame] at h

-- A failed step: what it wrote is not handed out, and not recorded either.
theorem failed_extends (hc : c.Honest) (hd : Sound d) {events : List Event}
    {entered : Decoder c.observed} {served : σ} {error : StepError}
    (hran : Ran alloc d input sink events entered s buffer served stepped)
    (houtcome : stepped.outcome = .error error) :
    Extends d (entered.returnSession stepped.session input
      stepped.input).reset.decoder true [] := by
  have hentered := entered_extends hc hd hran.enter
  have hreset := reset_extends hc (entered.returnSession stepped.session input stepped.input)
  have hreturned : (entered.returnSession stepped.session input stepped.input).output =
      entered.output := by
    rw [output_of_some hran.session, output_of_some (s := stepped.session) rfl,
      observed_step_error hran.step houtcome]
    rfl
  refine hentered.trans (.of_nothing hreset.sound hreset.size ?_ hreset.offset)
  rw [hreset.faithful, hreturned, List.flatMap_nil, List.append_nil]

/-- What an attempt does to a decoder. -/
def AttemptExtends (d : Decoder c.observed) :
    Round Event (Scene c.observed Cursor σ) (Turn c.observed Cursor σ Progress) → Prop
  | .again _ next => Extends d next.decoder false []
  | .done _ turn => Extends d turn.decoder (startedOver turn.result) (answeredChunks turn.result)

/-- One attempt. -/
theorem attempt_extends (hc : c.Honest) (hd : Sound d) (hready : d.session ≠ none)
    {r : Round Event (Scene c.observed Cursor σ) (Turn c.observed Cursor σ Progress)}
    (h : attempt alloc ⟨d, input, sink⟩ = .ok r) : AttemptExtends d r := by
  have hcases := attempted alloc d input sink hready
  rw [h] at hcases
  cases hcases with
  | spent _ _ => exact Extends.refl hd
  | refused _ _ _ hstart => exact refused_extends hstart
  | unserved henter _ =>
      have hentered := entered_extends hc hd henter
      exact hentered.trans (reset_extends hc _)
  | failed hran _ houtcome => exact failed_extends hc hd hran houtcome
  | starved hran _ houtcome _ hnothing => exact ran_extends_of_nothing hc hd hran houtcome hnothing
  | passed hran _ houtcome _ hnothing _ => exact ran_extends_of_nothing hc hd hran houtcome hnothing
  | closed hran _ houtcome _ hnothing _ => exact ran_extends_of_nothing hc hd hran houtcome hnothing
  | @filled _ entered s buffer served stepped status hran _ houtcome _ hsome _ _ =>
      have h := ran_extends hc hd hran houtcome (Or.inr ⟨hsome, rfl⟩)
      rw [← answeredChunks_ofChunk (entered.isLast stepped.input status)] at h
      exact h

end Attempts

/-! ## One call -/

section Calls

variable {σ : Type} {alloc : Allocator σ} {d : Decoder c.observed}

/-- One step, which hands its chunk to the caller. -/
theorem step_extends (hc : c.Honest) {w : Scene c.observed Cursor σ} (hd : Sound w.decoder)
    {fuel : Nat} {r : Logged Event (Turn c.observed Cursor σ Progress)}
    (h : step fuel alloc w = .ok r) :
    Extends w.decoder r.result.decoder (startedOver r.result.result)
      (answeredChunks r.result.result) := by
  by_cases hready : w.decoder.session = none
  · rw [step_of_not_ready hready] at h
    cases h
    exact .refl hd
  have hends := ends_of_step hready h
  clear h
  induction hends using Ends.ok_induction with
  | done hs => exact attempt_extends hc hd hready hs.of_const
  | @again w next events r hs _ ih =>
      have hround := hs.of_const
      have hfirst : Extends w.decoder next.decoder false [] := attempt_extends hc hd hready hround
      have hnext : next.decoder.session ≠ none := attempt_ready hready hround
      exact hfirst.trans (ih hfirst.sound hnext)

variable [Sink σ]

/-- What a round of a push does to a decoder and to a sink that is recorded. -/
def DriveExtends (w : Scene c.observed Cursor (Recorder σ)) :
    PushRound c.observed (Recorder σ) → Prop
  | .again _ next => ∃ chunks, Extends w.decoder next.decoder false chunks ∧
      next.sink.handed = w.sink.handed ++ chunks
  | .done _ turn => ∃ chunks, Extends w.decoder turn.decoder (startedOver turn.result) chunks ∧
      turn.sink.handed = w.sink.handed ++ chunks

-- A chunk counts as handed out even if the sink refuses it; the decoder is then reset.
theorem deliverThen_extends (hc : c.Honest) {last : Bool} {events : List Event} {chunk : Chunk}
    {w : Scene c.observed Cursor (Recorder σ)} {d : Decoder c.observed} {sink : Recorder σ}
    (h : Extends d w.decoder false [chunk]) (hsink : w.sink.handed = sink.handed) (input : Cursor) :
    DriveExtends ⟨d, input, sink⟩ (deliverThen last events chunk w) := by
  rcases w with ⟨d', input', sink'⟩
  rcases hpush : Sink.push sink' chunk with ⟨cause | ⟨⟩, taken⟩
  · rw [deliverThen_of_error hpush]
    refine ⟨[chunk], h.trans (reset_extends hc d'), ?_⟩
    rw [← hsink]
    exact Recorder.handed_push hpush
  · rw [deliverThen_of_ok hpush]
    have htaken : taken.handed = sink.handed ++ [chunk] := by
      rw [← hsink]
      exact Recorder.handed_push hpush
    cases last with
    | true => exact ⟨[chunk], h, htaken⟩
    | false => exact ⟨[chunk], h, htaken⟩

/-- One round of a push. -/
theorem drive_extends (hc : c.Honest) {w : Scene c.observed Cursor (Recorder σ)}
    (hd : Sound w.decoder) (hready : w.decoder.session ≠ none)
    {r : PushRound c.observed (Recorder σ)}
    (h : drive w = .ok r) : DriveExtends w r := by
  rcases w with ⟨d, input, sink⟩
  rcases map_eq_ok h with ⟨q, hattempt, rfl⟩
  have hextends := attempt_extends hc hd hready hattempt
  have hhanded := handed_attempt hready hattempt
  cases q with
  | again events next => exact ⟨[], hextends, by rw [List.append_nil]; exact hhanded⟩
  | done events turn =>
      rcases turn with ⟨w', error | chunk | last | _⟩
      · exact ⟨[], hextends, by rw [List.append_nil]; exact hhanded⟩
      · exact deliverThen_extends hc hextends hhanded input
      · cases last with
        | none => exact ⟨[], hextends, by rw [List.append_nil]; exact hhanded⟩
        | some chunk => exact deliverThen_extends hc hextends hhanded input
      · exact ⟨[], hextends, by rw [List.append_nil]; exact hhanded⟩

/-- A push, into a sink that is recorded. -/
theorem push_extends (hc : c.Honest) {w : Scene c.observed Cursor (Recorder σ)}
    (hd : Sound w.decoder) {fuel : Nat}
    {r : Logged Event (Turn c.observed Cursor (Recorder σ) Bool)} (h : pushCursor fuel w = .ok r) :
    ∃ chunks, Extends w.decoder r.result.decoder (startedOver r.result.result) chunks ∧
      r.result.sink.handed = w.sink.handed ++ chunks := by
  by_cases hready : w.decoder.session = none
  · cases push_of_not_ready hready h
    exact ⟨[], .refl hd, (List.append_nil _).symm⟩
  have hends := ends_of_push hready h
  clear h
  induction hends using Ends.ok_induction with
  | done hs => exact drive_extends hc hd hready hs.of_const
  | @again w next events r hs _ ih =>
      have hround := hs.of_const
      rcases drive_extends hc hd hready hround with ⟨chunks, hfirst, hhanded⟩
      rcases ih hfirst.sound (drive_ready hready hround) with ⟨later, hrest, hlater⟩
      refine ⟨chunks ++ later, hfirst.trans hrest, ?_⟩
      rw [← List.append_assoc, ← hhanded]
      exact hlater

omit [Sink σ] in
theorem finish_extends (hc : c.Honest) (hd : Sound d) :
    Extends d d.finish.decoder (startedOver d.finish.result) [] := by
  cases hpending : d.isPending with
  | true =>
      rw [finish_of_pending hpending]
      exact reset_extends hc d
  | false =>
      rw [finish_of_not_pending hpending]
      exact .refl hd

/-- Where decoding from a reader is, seen from the decoder and the sink it began with. -/
def ReadExtends (d : Decoder c.observed) (sink : Recorder σ) :
    ReadRound c.observed (Recorder σ) → Prop
  | .again _ next => ∃ chunks, Extends d next.decoder false chunks ∧
      next.sink.handed = sink.handed ++ chunks
  | .done _ turn => ∃ chunks, Extends d turn.decoder (startedOver turn.result) chunks ∧
      turn.sink.handed = sink.handed ++ chunks

omit [Sink σ] in
theorem takePush_extends {sink : Recorder σ} {reader : Reader} {events : List Event}
    {turn : Turn c.observed Cursor (Recorder σ) Bool} {chunks : List Chunk}
    (h : Extends d turn.decoder (startedOver turn.result) chunks)
    (hhanded : turn.sink.handed = sink.handed ++ chunks) :
    ReadExtends d sink (takePush reader events turn) := by
  rcases turn with ⟨⟨d', input, sink'⟩, error | ended⟩
  · exact ⟨chunks, h, hhanded⟩
  · by_cases hlast : (ended && !d'.multipleMembers) = true
    · simp only [takePush, if_pos hlast]
      exact ⟨chunks, h, hhanded⟩
    · simp only [takePush, if_neg hlast]
      exact ⟨chunks, h, hhanded⟩

/-- One round of decoding from a reader. -/
theorem readRound_extends (hc : c.Honest) {w : Scene c.observed Reader (Recorder σ)}
    (hd : Sound w.decoder) {fuel : Nat} {r : ReadRound c.observed (Recorder σ)}
    (h : readRound fuel w = .ok r) : ReadExtends w.decoder w.sink r := by
  rcases w with ⟨d, reader, sink⟩
  rcases hfill : reader.fill with ⟨cause | buffer, reader'⟩
  · rw [readRound_of_fail hfill] at h
    by_cases hkind : cause.kind = .interrupted
    · rw [if_pos hkind] at h
      cases h
      exact ⟨[], .refl hd, (List.append_nil _).symm⟩
    · rw [if_neg hkind] at h
      cases h
      exact ⟨[], reset_extends hc d, (List.append_nil _).symm⟩
  · by_cases hmore : buffer = []
    · subst hmore
      rw [readRound_of_end hfill] at h
      cases h
      exact ⟨[], finish_extends hc hd, (List.append_nil _).symm⟩
    · rw [readRound_of_data hfill hmore] at h
      rcases map_eq_ok h with ⟨q, hpush, rfl⟩
      rcases push_extends hc (w := ⟨d, .ofBytes buffer, sink⟩) hd hpush with
        ⟨chunks, hchunks, hhanded⟩
      exact takePush_extends hchunks hhanded

/-- Decoding from a reader. -/
theorem readAll_extends (hc : c.Honest) {d : Decoder c.observed} (hd : Sound d) {fuel : Nat}
    {reader : Reader} {sink : Recorder σ}
    {r : Logged Event (Turn c.observed Reader (Recorder σ) Unit)}
    (h : d.readAll fuel reader sink = .ok r) :
    ∃ chunks, Extends d r.result.decoder (startedOver r.result.result) chunks ∧
      r.result.sink.handed = sink.handed ++ chunks := by
  -- What has been handed out is counted from the first round on.
  refine run_induction (I := fun w : Scene c.observed Reader (Recorder σ) => ∃ chunks,
      Extends d w.decoder false chunks ∧ w.sink.handed = sink.handed ++ chunks)
    (Q := fun turn => ∃ chunks, Extends d turn.decoder (startedOver turn.result) chunks ∧
      turn.sink.handed = sink.handed ++ chunks) ?_ ?_
    ⟨[], .refl hd, (List.append_nil _).symm⟩ h
  · rintro w events next ⟨chunks, hchunks, hhanded⟩ hround
    rcases readRound_extends hc hchunks.sound hround with ⟨more, hmore, hmore'⟩
    exact ⟨chunks ++ more, hchunks.trans hmore, by rw [hmore', hhanded, List.append_assoc]⟩
  · rintro w events turn ⟨chunks, hchunks, hhanded⟩ hround
    rcases readRound_extends hc hchunks.sound hround with ⟨more, hmore, hmore'⟩
    exact ⟨chunks ++ more, hchunks.trans hmore, by rw [hmore', hhanded, List.append_assoc]⟩

end Calls

/-! ## Histories -/

section Histories

/-- The bytes that were written during a call. -/
def Record.wrote (r : Record c.observed) : List UInt8 :=
  r.after.output.drop r.before.output.length

/-- What a call does to a decoder, by its record. -/
structure Record.Keeps (r : Record c.observed) : Prop where
  sound : Sound r.after
  contiguous : Contiguous r.before.outputOffset r.chunks
  filled : ∀ chunk ∈ r.chunks, chunk.data ≠ [] ∧ chunk.length ≤ r.before.bufferSize.toNat
  grown : r.after.output = r.before.output ++ r.wrote
  faithful : r.chunks.flatMap Chunk.data = r.wrote
  offset : r.after.outputOffset =
    if r.startsOver then 0 else r.before.outputOffset + r.wrote.length

theorem Extends.keeps {d d' : Decoder c.observed} {afresh : Bool} {chunks : List Chunk}
    (h : Extends d d' afresh chunks) (events : List Event) :
    Record.Keeps ⟨d, d', events, chunks, afresh⟩ := by
  have hwrote : Record.wrote ⟨d, d', events, chunks, afresh⟩ = chunks.flatMap Chunk.data := by
    unfold Record.wrote
    dsimp only
    rw [h.faithful, List.drop_left]
  exact ⟨h.sound, h.contiguous, h.filled, by rw [hwrote]; exact h.faithful, hwrote.symm,
    by rw [hwrote]; exact h.offset⟩

-- A setting that has nothing to do with the output.
theorem keeps_of_setting {d d' : Decoder c.observed} (hd : Sound d')
    (houtput : d'.output = d.output)
    (hoffset : d'.outputOffset = d.outputOffset) : Record.Keeps ⟨d, d', [], [], false⟩ := by
  have hwrote : Record.wrote ⟨d, d', [], [], false⟩ = [] := by
    unfold Record.wrote
    dsimp only
    rw [houtput, List.drop_length]
  exact ⟨hd, True.intro, (fun _ hc => absurd hc List.not_mem_nil),
    by rw [hwrote, List.append_nil]; exact houtput, hwrote.symm, by rw [hwrote]; exact hoffset⟩

-- What a session that is given up has written stays written.
theorem release_extends (d : Decoder c.observed) : Extends d d.release.decoder false [] := by
  have hsession : d.release.decoder.session = none := by
    unfold release
    rw [endSession_eq]
  refine .of_nothing ?_ ?_ ?_ ?_
  · intro s hs
    rw [hsession] at hs
    cases hs
  · unfold release
    rw [endSession_eq]
  · rw [output_of_none hsession]
    unfold release
    rw [endSession_eq]
    rfl
  · unfold release
    rw [endSession_eq]
    rfl

variable {σ : Type} [Sink σ]

/-- One call. -/
theorem run_keeps (hc : c.Honest) {d : Decoder c.observed} (hd : Sound d) {fuel : Nat}
    {call : Call σ} {r : Record c.observed} (h : call.run fuel d = .ok r) :
    r.before = d ∧ r.Keeps := by
  cases call with
  | push input sink =>
      rcases map_eq_ok h with ⟨q, hq, rfl⟩
      rcases push_extends hc (w := ⟨d, .ofBytes input, Recorder.ofSink sink⟩) hd hq with
        ⟨chunks, hchunks, hhanded⟩
      have hkeeps := hchunks.keeps q.events
      rw [show chunks = q.result.sink.handed from hhanded.symm] at hkeeps
      exact ⟨rfl, hkeeps⟩
  | next input =>
      rcases map_eq_ok h with ⟨q, hq, rfl⟩
      have hchunks := step_extends hc (w := ⟨d, input, ()⟩) hd hq
      exact ⟨rfl, hchunks.keeps q.events⟩
  | readAll reader sink =>
      rcases map_eq_ok h with ⟨q, hq, rfl⟩
      rcases readAll_extends hc hd hq with ⟨chunks, hchunks, hhanded⟩
      have hkeeps := hchunks.keeps q.events
      rw [show chunks = q.result.sink.handed from hhanded.symm] at hkeeps
      exact ⟨rfl, hkeeps⟩
  | finish =>
      cases h
      exact ⟨rfl, (finish_extends hc hd).keeps _⟩
  | reset =>
      cases h
      exact ⟨rfl, (reset_extends hc d).keeps _⟩
  | release =>
      cases h
      exact ⟨rfl, (release_extends d).keeps _⟩
  | setBufferSize size =>
      cases h
      exact ⟨rfl, keeps_of_setting hd (by rw [output_eq, output_eq]) rfl⟩
  | setMultipleMembers multiple =>
      cases h
      exact ⟨rfl, keeps_of_setting hd (by rw [output_eq, output_eq]) rfl⟩

/-! ## Epochs -/

/-- A stretch of a history that begins at an offset: what is handed out in it goes on from
    there, is what was written in it, and comes in chunks of a size that was allowed. -/
structure IntactFrom (offset : Nat) (stretch : List (Record c.observed)) : Prop where
  contiguous : Contiguous offset (stretch.flatMap Record.chunks)
  filled : ∀ r ∈ stretch, ∀ chunk ∈ r.chunks,
    chunk.data ≠ [] ∧ chunk.length ≤ r.before.bufferSize.toNat
  grown : ∀ r ∈ stretch, r.after.output = r.before.output ++ r.wrote
  faithful : (stretch.flatMap Record.chunks).flatMap Chunk.data = stretch.flatMap Record.wrote
  counted : ∀ early r late, stretch = early ++ r :: late → r.after.outputOffset =
    if r.startsOver then 0 else offset + ((early ++ [r]).flatMap Record.wrote).length

/-- A stretch that begins with a reset. -/
def Intact (stretch : List (Record c.observed)) : Prop :=
  IntactFrom 0 stretch

/-- The stretches of a history between two resets. Each but the last ends with the call
    that has reset the decoder. -/
def epochs : List (Record c.observed) → List (List (Record c.observed))
  | [] => []
  | r :: rest =>
    if r.startsOver then [r] :: epochs rest
    else
      match epochs rest with
      | [] => [[r]]
      | stretch :: later => (r :: stretch) :: later

/-- The first stretch goes on from an offset, and the others begin with a reset. -/
def EpochsFrom (offset : Nat) : List (List (Record c.observed)) → Prop
  | [] => True
  | stretch :: later => IntactFrom offset stretch ∧ ∀ e ∈ later, Intact e

theorem EpochsFrom.all {es : List (List (Record c.observed))} (h : EpochsFrom 0 es) :
    ∀ e ∈ es, Intact e := by
  intro e he
  cases es with
  | nil => cases he
  | cons stretch later =>
      rcases List.mem_cons.mp he with rfl | hlater
      · exact h.1
      · exact h.2 e hlater

theorem IntactFrom.nil (offset : Nat) : IntactFrom offset ([] : List (Record c.observed)) where
  contiguous := True.intro
  filled := fun _ hc => absurd hc List.not_mem_nil
  grown := fun _ hc => absurd hc List.not_mem_nil
  faithful := rfl
  counted := fun early r late h => by cases early <;> cases h

-- One more call before a stretch: a call that starts over is the last of its own.
theorem IntactFrom.cons {r : Record c.observed} {stretch : List (Record c.observed)} (hr : r.Keeps)
    (hover : r.startsOver = true → stretch = [])
    (h : IntactFrom (r.before.outputOffset + r.wrote.length) stretch) :
    IntactFrom r.before.outputOffset (r :: stretch) where
  contiguous := by
    rw [List.flatMap_cons]
    refine contiguous_append.mpr ⟨hr.contiguous, ?_⟩
    rw [hr.faithful]
    exact h.contiguous
  filled := by
    intro r' hr'
    rcases List.mem_cons.mp hr' with rfl | hlater
    · exact hr.filled
    · exact h.filled r' hlater
  grown := by
    intro r' hr'
    rcases List.mem_cons.mp hr' with rfl | hlater
    · exact hr.grown
    · exact h.grown r' hlater
  faithful := by
    rw [List.flatMap_cons, List.flatMap_append, hr.faithful, h.faithful, List.flatMap_cons]
  counted := by
    intro early r' late heq
    cases early with
    | nil =>
        cases heq
        rw [List.nil_append, List.flatMap_singleton]
        exact hr.offset
    | cons r'' early =>
        cases heq
        have hcounted := h.counted early r' late rfl
        rw [hcounted, List.cons_append, List.flatMap_cons, List.length_append, Nat.add_assoc]

/-- The epochs of a history, from wherever the decoder is. -/
theorem history_epochs (hc : c.Honest) {fuel : Nat} {calls : List (Call σ)} :
    ∀ {d : Decoder c.observed} {records : List (Record c.observed)}, Sound d →
      history fuel d calls = .ok records → EpochsFrom d.outputOffset (epochs records) := by
  induction calls with
  | nil =>
      intro d records _ h
      cases h
      exact True.intro
  | cons call rest ih =>
      intro d records hd h
      rcases history_cons_ok h with ⟨r, later, hrun, hrest, rfl⟩
      rcases run_keeps hc hd hrun with ⟨rfl, hr⟩
      have hlater := ih hr.sound hrest
      rw [hr.offset] at hlater
      unfold epochs
      -- A call that starts over closes an epoch; any other belongs to the one that follows.
      by_cases hover : r.startsOver = true
      · rw [if_pos hover] at hlater ⊢
        exact ⟨.cons hr (fun _ => rfl) (.nil _), hlater.all⟩
      · rw [if_neg hover] at hlater ⊢
        cases hepochs : epochs later with
        | nil => exact ⟨.cons hr (fun _ => rfl) (.nil _), fun _ hc => absurd hc List.not_mem_nil⟩
        | cons stretch es =>
            rw [hepochs] at hlater
            exact ⟨.cons hr (fun hc => absurd hc hover) hlater.1, hlater.2⟩

/-- Every epoch of every history is intact: whatever calls a decoder is given, what it has
    handed out since it was last reset goes on from zero without a gap, and is, byte for
    byte, what its sessions have written. That they are observed makes no difference. -/
theorem history_intact (hc : c.Honest) {fuel : Nat} {memory : M} {calls : List (Call σ)}
    {records : List (Record c)} (h : history fuel (idle c memory) calls = .ok records) :
    ∃ observed, history fuel (idle c.observed (memory, [])) calls = .ok observed ∧
      observed.map Record.plain = records ∧ ∀ e ∈ epochs observed, Intact e := by
  rcases history_plain (d := idle c.observed (memory, [])) h with ⟨observed, hobserved, hplain⟩
  have hsound : Sound (idle c.observed (memory, [])) := fun s hs => by cases hs
  exact ⟨observed, hobserved, hplain, (history_epochs hc hsound hobserved).all⟩

/-- Two members and a reset in between, copied by all kinds of calls. -/
theorem history_intact_copier : ∃ records observed,
    history 9 (idle copier ()) [.reset, .setMultipleMembers true, .setBufferSize ⟨2, by decide⟩,
      .push [5, 6, 7, 0, 8] (#[] : Array Chunk), .next (.ofBytes [9, 0]), .finish, .reset,
      .readAll ⟨[.data [3, 0], .data [4]]⟩ #[], .release] = .ok records ∧
    history 9 (idle copier.observed ((), [])) [.reset, .setMultipleMembers true,
      .setBufferSize ⟨2, by decide⟩, .push [5, 6, 7, 0, 8] (#[] : Array Chunk),
      .next (.ofBytes [9, 0]), .finish, .reset, .readAll ⟨[.data [3, 0], .data [4]]⟩ #[],
      .release] = .ok observed ∧
    observed.map Record.plain = records ∧ ∀ e ∈ epochs observed, Intact e := by
  have hreturns : ∃ records, history 9 (idle copier ()) [.reset, .setMultipleMembers true,
      .setBufferSize ⟨2, by decide⟩, .push [5, 6, 7, 0, 8] (#[] : Array Chunk),
      .next (.ofBytes [9, 0]), .finish, .reset, .readAll ⟨[.data [3, 0], .data [4]]⟩ #[],
      .release] = .ok records := ⟨_, rfl⟩
  rcases hreturns with ⟨records, hrecords⟩
  rcases history_intact copier_honest hrecords with ⟨observed, hobserved, hplain, hintact⟩
  exact ⟨records, observed, hrecords, hobserved, hplain, hintact⟩

end Histories

end Decompression
