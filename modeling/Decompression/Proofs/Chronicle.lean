import Decompression.Proofs.Invariant

/-!
# What the Live Session Has Done

A decoder keeps two flags about its session, and everything it says about the state of a
stream rests on them. `Codec.chronicled` is the same codec with a chronicle: a session
carries what each of its steps has done, and the memory collects this from the sessions that
are gone. `chronicling` says that the chronicle changes nothing.

The flags are set in the middle of a step, and cleared when a session is started, even if
none can be. So they describe what the live session has done, and nothing else, as long as
there is one; without one they say what the last session had done.

## Main definitions

* `Deed`: What one step of a session did.
* `Codec.chronicled`: The codec with a chronicle.
* `Decoder.deeds`, `Decoder.chronicle`: What the live session has done, and what all of them have.
* `Decoder.Flagged`: The flags say what the live session has done.

## Theorems

* `chronicling`: The chronicle changes nothing.
* `flagged_lasting`: Whatever a decoder does, its flags say what its session has done.
* `reachable_chronicled`: Every reachable decoder is one that a chronicle can be kept of.
-/

namespace Decompression

open Decoder

variable {S M : Type}

/-! ## The chronicle -/

/-- What one step of a session did: how far it read on, and how it ended. -/
structure Deed where
  read : Nat
  outcome : Except StepError Status

/-- What a step did that read from one position to another. -/
def Deed.ofStep (before : Cursor) (stepped : Stepped S) : Deed :=
  ⟨stepped.input.index - before.index, stepped.outcome⟩

/-- The codec, with a chronicle of what the steps of its sessions have done. -/
def Codec.chronicled (c : Codec S M) : Codec (S × List Deed) (M × List Deed) where
  name := c.name
  start m :=
    match c.start m.1 with
    | (.ok s, memory) => (.ok (s, []), (memory, m.2))
    | (.error cause, memory) => (.error cause, (memory, m.2))
  stop s m := (c.stop s.1 m.1, m.2 ++ s.2)
  step s input output :=
    let stepped := c.step s.1 input output
    ⟨(stepped.session, s.2 ++ [.ofStep input stepped]), stepped.input, stepped.output,
      stepped.outcome⟩
  totalOut s := c.totalOut s.1

variable {c : Codec S M}

theorem chronicled_start_of_ok {m : M × List Deed} {s : S} {memory : M}
    (h : c.start m.1 = (.ok s, memory)) :
    c.chronicled.start m = (.ok (s, []), (memory, m.2)) := by
  simp only [Codec.chronicled, h]

theorem chronicled_start_of_error {m : M × List Deed} {cause : IoError} {memory : M}
    (h : c.start m.1 = (.error cause, memory)) :
    c.chronicled.start m = (.error cause, (memory, m.2)) := by
  simp only [Codec.chronicled, h]

/-- A session that is started has done nothing, and nothing is forgotten. -/
theorem chronicled_start_inv {m m' : M × List Deed} {s : S × List Deed}
    (h : c.chronicled.start m = (.ok s, m')) : s.2 = [] ∧ m'.2 = m.2 := by
  rcases hstart : c.start m.1 with ⟨cause | s', memory⟩
  · rw [chronicled_start_of_error hstart] at h
    cases h
  · rw [chronicled_start_of_ok hstart] at h
    cases h
    exact ⟨rfl, rfl⟩

theorem chronicled_start_error_inv {m m' : M × List Deed} {cause : IoError}
    (h : c.chronicled.start m = (.error cause, m')) : m'.2 = m.2 := by
  rcases hstart : c.start m.1 with ⟨cause' | s', memory⟩
  · rw [chronicled_start_of_error hstart] at h
    cases h
    rfl
  · rw [chronicled_start_of_ok hstart] at h
    cases h

/-- A step is added to what its session has done. -/
theorem chronicled_step {s : S × List Deed} {input output : Cursor}
    {stepped : Stepped (S × List Deed)} (h : c.chronicled.step s input output = stepped) :
    stepped.session.2 = s.2 ++ [.ofStep input stepped] := by
  subst h
  rfl

/-- A codec and its chronicle: the chronicle changes nothing. -/
def chronicling (c : Codec S M) : Likeness c.chronicled c where
  session s₁ s₂ := s₁.1 = s₂
  memory m₁ m₂ := m₁.1 = m₂
  start := by
    rintro m₁ m₂ rfl
    rcases h : c.start m₁.1 with ⟨cause | s, memory⟩
    · exact Or.inr ⟨cause, _, _, chronicled_start_of_error h, rfl, rfl⟩
    · exact Or.inl ⟨_, _, _, _, chronicled_start_of_ok h, rfl, rfl, rfl⟩
  stop := by
    rintro s₁ s₂ m₁ m₂ rfl rfl
    rfl
  step := by
    rintro s₁ s₂ rfl input buffer _ _
    exact ⟨rfl, rfl, rfl, rfl⟩
  total := by
    rintro s₁ s₂ rfl
    rfl

theorem chronicling_idle (memory : M) (deeds : List Deed) :
    (chronicling c).Shifted 0 (idle c.chronicled (memory, deeds)) (idle c memory) :=
  ⟨rfl, .none, rfl, rfl, rfl, rfl, rfl, rfl⟩

/-- Every reachable decoder is one that a chronicle can be kept of. -/
theorem reachable_chronicled {d : Decoder c} (h : Reachable d) :
    ∃ e : Decoder c.chronicled, Reachable e ∧ (chronicling c).Shifted 0 e d := by
  induction h with
  | idle memory => exact ⟨_, .idle (memory, []), chronicling_idle memory []⟩
  | @call σ _ d fuel call r _ hrun ih =>
      rcases ih with ⟨e, he, halike⟩
      have hreport := report_alike fuel halike call
      rw [run_eq_report] at hrun
      rcases map_eq_ok hrun with ⟨q, hq, rfl⟩
      rw [hq] at hreport
      rcases hreport.of_ok with ⟨q', hq', hsame⟩
      have hrun' : call.run fuel e = .ok q'.toRecord := by
        rw [run_eq_report, hq']
        rfl
      exact ⟨_, he.call hrun', hsame.record.after⟩

/-! ## What a decoder knows of it -/

namespace Decoder

/-- What the live session has done. -/
def deeds (d : Decoder c.chronicled) : List Deed :=
  d.session.elim [] Prod.snd

/-- What all sessions have done for the decoder, whether they are gone or not. -/
def chronicle (d : Decoder c.chronicled) : List Deed :=
  d.retire.2

theorem chronicle_eq (d : Decoder c.chronicled) : d.chronicle = d.memory.2 ++ d.deeds := by
  unfold chronicle deeds
  cases h : d.session with
  | none =>
      rw [retire_of_none h]
      exact (List.append_nil _).symm
  | some s =>
      rw [retire_of_some h]
      rfl

/-- A fresh session has done nothing, and what was done before stays in the chronicle. -/
theorem chronicle_startedAt (d : Decoder c.chronicled) (offset : Nat) {s : S × List Deed}
    {memory : M × List Deed} (hstart : c.chronicled.start d.retire = (.ok s, memory)) :
    (d.startedAt offset s memory).chronicle = d.chronicle := by
  rcases chronicled_start_inv hstart with ⟨hdeeds, hmemory⟩
  rw [chronicle_eq]
  change memory.2 ++ s.2 = d.retire.2
  rw [hdeeds, hmemory, List.append_nil]

theorem chronicle_refusedAt (d : Decoder c.chronicled) (offset : Nat) {cause : IoError}
    {memory : M × List Deed} (hstart : c.chronicled.start d.retire = (.error cause, memory)) :
    (d.refusedAt offset memory).chronicle = d.chronicle := by
  rw [chronicle_eq]
  change memory.2 ++ [] = d.retire.2
  rw [chronicled_start_error_inv hstart, List.append_nil]

theorem chronicle_reset (d : Decoder c.chronicled) : d.reset.decoder.chronicle = d.chronicle := by
  rcases reset_cases d with ⟨s, memory, hstart, hreset⟩ | ⟨cause, memory, hstart, hreset⟩
  · rw [hreset]
    exact chronicle_startedAt d 0 hstart
  · rw [hreset]
    exact chronicle_refusedAt d 0 hstart

/-- The session has read something exactly if the decoder holds it to have, and has met its end
    exactly if the decoder holds it to be over. -/
def Flagged (d : Decoder c.chronicled) : Prop :=
  d.session ≠ none →
    (d.consumed = true ↔ ∃ deed ∈ d.deeds, 0 < deed.read) ∧
    (d.finished = true ↔ ∃ deed ∈ d.deeds, deed.outcome = .ok .streamEnd)

theorem flagged_of_none {d : Decoder c.chronicled} (h : d.session = none) : d.Flagged :=
  fun hsome => absurd h hsome

theorem flagged_started (d : Decoder c.chronicled) (offset : Nat) {s : S × List Deed}
    {m m' : M × List Deed} (hstart : c.chronicled.start m = (.ok s, m')) :
    (d.startedAt offset s m').Flagged := by
  intro _
  have hnone : (d.startedAt offset s m').deeds = [] := (chronicled_start_inv hstart).1
  rw [hnone]
  constructor
  · exact ⟨fun hc => Bool.noConfusion hc, fun ⟨_, hmem, _⟩ => nomatch hmem⟩
  · exact ⟨fun hc => Bool.noConfusion hc, fun ⟨_, hmem, _⟩ => nomatch hmem⟩

section Stepping

variable {d : Decoder c.chronicled} {s : S × List Deed} {input : Cursor} {buffer : List UInt8}
  {stepped : Stepped (S × List Deed)}

theorem deeds_of_session (hs : d.session = some s) : d.deeds = s.2 := by
  rw [deeds, hs]
  rfl

theorem deeds_afterStep (hs : d.session = some s)
    (hstep : c.chronicled.step s input (.ofBytes buffer) = stepped) (status : Status) :
    (d.afterStep input stepped status).deeds = d.deeds ++ [.ofStep input stepped] := by
  rw [deeds_of_session afterStep_session, deeds_of_session hs, chronicled_step hstep]

-- Whatever becomes of the step.
theorem chronicle_returnSession (hs : d.session = some s)
    (hstep : c.chronicled.step s input (.ofBytes buffer) = stepped) (after : Cursor) :
    (d.returnSession stepped.session input after).chronicle =
      d.chronicle ++ [.ofStep input stepped] := by
  rw [chronicle_eq, chronicle_eq, deeds_of_session hs, List.append_assoc, ← chronicled_step hstep]
  rfl

theorem chronicle_afterStep (hs : d.session = some s)
    (hstep : c.chronicled.step s input (.ofBytes buffer) = stepped) (status : Status) :
    (d.afterStep input stepped status).chronicle = d.chronicle ++ [.ofStep input stepped] := by
  rw [chronicle_eq, chronicle_eq, deeds_afterStep hs hstep, afterStep_memory, List.append_assoc]

theorem flagged_afterStep (hd : d.Flagged) (hs : d.session = some s)
    (hstep : c.chronicled.step s input (.ofBytes buffer) = stepped) {status : Status}
    (houtcome : stepped.outcome = .ok status) : (d.afterStep input stepped status).Flagged := by
  intro _
  rcases hd (by rw [hs]; exact Option.some_ne_none s) with ⟨hconsumed, hfinished⟩
  have hafter : (d.afterStep input stepped status).consumed =
      (d.consumed || decide (input.index < stepped.input.index)) := by
    cases status <;> rfl
  have hover : (d.afterStep input stepped status).finished =
      (d.finished || decide (status = .streamEnd)) := by
    cases status with
    | progress => exact (Bool.or_false _).symm
    | streamEnd => exact (Bool.or_true _).symm
  have hread : 0 < (Deed.ofStep input stepped).read ↔ input.index < stepped.input.index :=
    Nat.sub_pos_iff_lt
  have hended : (Deed.ofStep input stepped).outcome = .ok .streamEnd ↔ status = .streamEnd := by
    rw [show (Deed.ofStep input stepped).outcome = .ok status from houtcome, Except.ok.injEq]
  rw [deeds_afterStep hs hstep, hafter, hover, Bool.or_eq_true, Bool.or_eq_true, decide_eq_true_iff,
    decide_eq_true_iff, hconsumed, hfinished, ← hread, ← hended]
  simp only [List.mem_append, List.mem_singleton, or_and_right, exists_or, exists_eq_left,
    and_self]

end Stepping

end Decoder

/-- Whatever a decoder does, its flags say what its live session has done. -/
theorem flagged_lasting : Lasting (Flagged (c := c)) where
  started offset _ hstart := flagged_started _ offset hstart
  refused _ _ _ := flagged_of_none rfl
  stepped hd hs _ _ hstep houtcome := flagged_afterStep hd hs hstep houtcome
  failed := by
    intro d s input buffer stepped error _ _ _ _ _ _
    rcases reset_cases (d.returnSession stepped.session input stepped.input) with
      ⟨s', memory, hstart, hreset⟩ | ⟨cause, memory, _, hreset⟩
    · rw [hreset]
      exact flagged_started _ 0 hstart
    · rw [hreset]
      exact flagged_of_none rfl
  moved _ hd := hd
  ended := by
    intro d _
    rw [endSession_eq]
    exact flagged_of_none rfl
  resized _ hd := hd
  configured _ hd := hd

theorem Decoder.Reachable.flagged {d : Decoder c.chronicled} (h : Reachable d) : d.Flagged :=
  flagged_lasting.reachable (fun _ => flagged_of_none rfl) h

end Decompression
