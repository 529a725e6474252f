import Decompression.Proofs.Copier
import Decompression.Proofs.Recorder
import Decompression.Proofs.Simulation

/-!
# Decoders under Observation

Which bytes the sessions of a decoder have written is not to be seen from the decoder: it
keeps counts of them only, and hands the bytes on. `Codec.observed` is the same codec with
a record of them. Its sessions do what the sessions of the codec do, and each also carries
the bytes that it has written in successful steps; the memory collects the bytes of the
sessions that are gone. `observing` says that the record changes nothing, so whatever
decoders over the two codecs are asked, they do the same.

What a session writes must be told from what happens to be in the buffer. `Codec.written`
is what it writes into a buffer of zeros, and a codec is honest if this is what is in front
of the output cursor whatever the buffer held before, if the cursor stays within the buffer,
and if the session counts what it writes.

## Main definitions

* `Codec.written`: What a session writes in one step.
* `Codec.Reached`: The sessions that successful steps lead to.
* `Codec.Honest`: Sessions write the bytes that they report.
* `Codec.observed`: The codec with a record of what its sessions write.
* `Decoder.output`: All bytes written for a decoder so far.
* `Decoder.plain`: The decoder without the record.

## Theorems

* `observing`: The record changes nothing.
* `shifted_plain_iff`: How a decoder under observation and one without correspond.
-/

namespace Decompression

variable {S M : Type}

/-! ## Honest codecs -/

/-- What a session writes in one step, if there is room for `size` bytes. -/
def Codec.written (c : Codec S M) (s : S) (input : Cursor) (size : Nat) : List UInt8 :=
  (c.step s input (.ofBytes (Sink.zeroed size))).output.front

/-- The sessions that successful steps lead to. -/
inductive Codec.Reached (c : Codec S M) : S → Prop
  | fresh {memory memory' : M} {s : S} (start : c.start memory = (.ok s, memory')) : Reached c s
  | step {s : S} {input : Cursor} {buffer : List UInt8} {stepped : Stepped S} {status : Status}
      (before : Reached c s) (bounds : input.InBounds) (room : buffer ≠ [])
      (step : c.step s input (.ofBytes buffer) = stepped)
      (outcome : stepped.outcome = .ok status) : Reached c stepped.session

/-- What is expected of a successful step. -/
structure Codec.Honestly (c : Codec S M) (s : S) (input : Cursor) (buffer : List UInt8)
    (stepped : Stepped S) : Prop where
  -- The buffer stays as large as it is, and the cursor stays within it.
  size : stepped.output.bytes.length = buffer.length
  bounds : stepped.output.InBounds
  -- The session counts the bytes by which the cursor has moved.
  count : c.totalOut stepped.session = c.totalOut s + stepped.output.index
  -- It has written them, whatever was in the buffer before.
  bytes : stepped.output.front = c.written s input buffer.length

/-- Sessions count their output from zero, and write the bytes that they report. -/
structure Codec.Honest (c : Codec S M) : Prop where
  fresh : ∀ {memory memory' s}, c.start memory = (.ok s, memory') → c.totalOut s = 0
  step : ∀ {s : S} {input : Cursor} {buffer : List UInt8} {stepped : Stepped S} {status : Status},
    c.Reached s → input.InBounds → buffer ≠ [] → c.step s input (.ofBytes buffer) = stepped →
    stepped.outcome = .ok status → c.Honestly s input buffer stepped

theorem Codec.Honestly.length {c : Codec S M} {s : S} {input : Cursor} {buffer : List UInt8}
    {stepped : Stepped S} (h : c.Honestly s input buffer stepped) :
    stepped.output.front.length = stepped.output.index :=
  Cursor.length_front h.bounds

/-- A codec that copies writes what it reports. -/
theorem copier_honest : copier.Honest where
  fresh h := by cases h; rfl
  step := by
    rintro ⟨total, ended⟩ input buffer stepped status _ _ hroom hstep _
    cases ended with
    | true =>
        subst hstep
        exact ⟨rfl, Nat.zero_le _, rfl, rfl⟩
    | false =>
        rcases copied hstep with ⟨data, _, hbounds, hfront, htotal, _⟩
        have hfits : ((upToZero input.rest).take buffer.length).length ≤ buffer.length := by
          rw [List.length_take]
          exact Nat.min_le_left _ _
        have houtput : stepped.output =
            (Cursor.ofBytes buffer).fill ((upToZero input.rest).take buffer.length) := by
          rw [← hstep]
          exact copier_output total input buffer
        have hbytes : stepped.output.front = copier.written (total, false) input buffer.length := by
          have hzeroed : (Sink.zeroed buffer.length).length = buffer.length := List.length_replicate
          rw [Codec.written, copier_output, houtput, hzeroed, (fill_ofBytes hfits).2,
            (fill_ofBytes (by rw [hzeroed]; exact hfits)).2]
        have hindex : stepped.output.front.length = stepped.output.index :=
          Cursor.length_front hbounds
        refine ⟨?_, hbounds, ?_, hbytes⟩
        · rw [houtput]
          exact Cursor.length_overlay _ _ (Nat.zero_le _)
        · rw [← hindex, hfront]
          exact htotal

/-! ## The record -/

/-- The codec, with a record of the bytes that each session has written in successful steps. -/
def Codec.observed (c : Codec S M) : Codec (S × List UInt8) (M × List UInt8) where
  name := c.name
  start m :=
    match c.start m.1 with
    | (.ok s, memory) => (.ok (s, []), (memory, m.2))
    | (.error cause, memory) => (.error cause, (memory, m.2))
  stop s m := (c.stop s.1 m.1, m.2 ++ s.2)
  step s input output :=
    let stepped := c.step s.1 input output
    let wrote :=
      match stepped.outcome with
      | .ok _ => s.2 ++ c.written s.1 input output.bytes.length
      | .error _ => s.2
    ⟨(stepped.session, wrote), stepped.input, stepped.output, stepped.outcome⟩
  totalOut s := c.totalOut s.1

variable {c : Codec S M}

theorem observed_start_of_ok {m : M × List UInt8} {s : S} {memory : M}
    (h : c.start m.1 = (.ok s, memory)) :
    c.observed.start m = (.ok (s, []), (memory, m.2)) := by
  simp only [Codec.observed, h]

theorem observed_start_of_error {m : M × List UInt8} {cause : IoError} {memory : M}
    (h : c.start m.1 = (.error cause, memory)) :
    c.observed.start m = (.error cause, (memory, m.2)) := by
  simp only [Codec.observed, h]

/-- A session under observation is fresh, and has written nothing. -/
theorem observed_start_inv {m m' : M × List UInt8} {s : S × List UInt8}
    (h : c.observed.start m = (.ok s, m')) :
    ∃ memory, c.start m.1 = (.ok s.1, memory) ∧ s.2 = [] ∧ m'.2 = m.2 := by
  rcases hstart : c.start m.1 with ⟨cause | s', memory⟩
  · rw [observed_start_of_error hstart] at h
    cases h
  · rw [observed_start_of_ok hstart] at h
    cases h
    exact ⟨memory, rfl, rfl, rfl⟩

theorem observed_start_error_inv {m m' : M × List UInt8} {cause : IoError}
    (h : c.observed.start m = (.error cause, m')) : m'.2 = m.2 := by
  rcases hstart : c.start m.1 with ⟨cause' | s', memory⟩
  · rw [observed_start_of_error hstart] at h
    cases h
    rfl
  · rw [observed_start_of_ok hstart] at h
    cases h

/-- What is recorded of a successful step. -/
theorem observed_step_ok {s : S × List UInt8} {input : Cursor} {buffer : List UInt8}
    {stepped : Stepped (S × List UInt8)} {status : Status}
    (h : c.observed.step s input (.ofBytes buffer) = stepped)
    (houtcome : stepped.outcome = .ok status) :
    ∃ r, c.step s.1 input (.ofBytes buffer) = r ∧ r.outcome = .ok status ∧
      r.output = stepped.output ∧
      stepped.session = (r.session, s.2 ++ c.written s.1 input buffer.length) := by
  subst h
  refine ⟨_, rfl, houtcome, rfl, ?_⟩
  have hplain : (c.step s.1 input (.ofBytes buffer)).outcome = .ok status := houtcome
  simp only [Codec.observed, hplain]
  rfl

/-- A failed step records nothing. -/
theorem observed_step_error {s : S × List UInt8} {input : Cursor} {buffer : List UInt8}
    {stepped : Stepped (S × List UInt8)} {error : StepError}
    (h : c.observed.step s input (.ofBytes buffer) = stepped)
    (houtcome : stepped.outcome = .error error) : stepped.session.2 = s.2 := by
  subst h
  have hplain : (c.step s.1 input (.ofBytes buffer)).outcome = .error error := houtcome
  simp only [Codec.observed, hplain]

/-- A codec and its record: the record changes nothing. -/
def observing (c : Codec S M) : Likeness c.observed c where
  session s₁ s₂ := s₁.1 = s₂
  memory m₁ m₂ := m₁.1 = m₂
  start := by
    rintro m₁ m₂ rfl
    rcases h : c.start m₁.1 with ⟨cause | s, memory⟩
    · exact Or.inr ⟨cause, _, _, observed_start_of_error h, rfl, rfl⟩
    · exact Or.inl ⟨_, _, _, _, observed_start_of_ok h, rfl, rfl, rfl⟩
  stop := by
    rintro s₁ s₂ m₁ m₂ rfl rfl
    rfl
  step := by
    rintro s₁ s₂ rfl input buffer _ _
    exact ⟨rfl, rfl, rfl, rfl⟩
  total := by
    rintro s₁ s₂ rfl
    rfl

namespace Decoder

/-- All bytes that sessions have written for the decoder, whether they are gone or not. -/
def output (d : Decoder c.observed) : List UInt8 :=
  d.retire.2

theorem output_of_some {d : Decoder c.observed} {s : S × List UInt8} (h : d.session = some s) :
    d.output = d.memory.2 ++ s.2 := by
  rw [output, retire_of_some h]
  rfl

theorem output_of_none {d : Decoder c.observed} (h : d.session = none) : d.output = d.memory.2 := by
  rw [output, retire_of_none h]

theorem output_eq (d : Decoder c.observed) :
    d.output = d.memory.2 ++ d.session.elim [] Prod.snd := by
  cases h : d.session with
  | none =>
      rw [output_of_none h]
      exact (List.append_nil _).symm
  | some s => exact output_of_some h

/-- The decoder without the record. -/
def plain (d : Decoder c.observed) : Decoder c where
  memory := d.memory.1
  session := d.session.map Prod.fst
  outputOffset := d.outputOffset
  memberBase := d.memberBase
  consumed := d.consumed
  finished := d.finished
  bufferSize := d.bufferSize
  multipleMembers := d.multipleMembers

/-- A decoder under observation corresponds to itself without the record. -/
theorem shifted_plain_iff {d₁ : Decoder c.observed} {d₂ : Decoder c} :
    (observing c).Shifted 0 d₁ d₂ ↔ d₁.plain = d₂ := by
  constructor
  · intro h
    have hsession : d₁.session.map Prod.fst = d₂.session := by
      have hlive := h.session
      generalize d₁.session = s₁ at hlive
      generalize d₂.session = s₂ at hlive
      cases hlive with
      | none => rfl
      | some hs => exact congrArg some hs
    cases d₂ with
    | mk memory session outputOffset memberBase consumed finished bufferSize multipleMembers =>
        simp only [plain, Decoder.mk.injEq]
        exact ⟨h.memory, hsession, h.outputOffset, h.memberBase, h.consumed, h.finished,
          h.bufferSize, h.multipleMembers⟩
  · rintro rfl
    refine ⟨rfl, ?_, rfl, rfl, rfl, rfl, rfl, rfl⟩
    unfold plain
    cases d₁.session with
    | none => exact .none
    | some s => exact .some rfl

end Decoder

end Decompression
