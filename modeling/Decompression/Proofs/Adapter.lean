import Decompression.Bzip2.Session
import Decompression.Deflate.Session

/-!
# Sessions of a Primitive

A session knows how far its primitive got from what the primitive has counted. If a call
has counted what it read and what it wrote, and wrote no more than there was room for,
then its step moves the two cursors past just that. Nothing else is needed of the
primitive, so this is said of any. As long as no count goes down, the cursors go on by as
much as the counts do, whatever the code is.

A step may fail because the call did, and then the cursors stay where they are. It may
also fail because of the code that a call answered with, and then they have been moved
before. With deflate no code is a failure, so a step that fails has moved nothing,
whatever the primitive does. With bzip2 there are four such codes.

## Main definitions

* `Primitive.Counted`: A call that has counted what it read and wrote.
* `Primitive.Grows`: No count goes down.

## Theorems

* `Adapter.step_cases`: What a step comes to.
* `Adapter.index_of_ok`: The cursors are moved by as much as the counts have grown.
* `Adapter.call_of_outcome`: The call behind a step that succeeds.
* `Adapter.step_of_counted`: Where the cursors are moved.
* `Deflate.primitive_grows`, `Bzip2.primitive_grows`: The two primitives are like that.
* `Deflate.unmoved_of_failed`: A deflate step that fails moves nothing.
* `Bzip2.conclude_eq_error_iff`: The codes that are failures.
* `Bzip2.run_of_decompress`: What a call of the bzip2 primitive is that succeeds.
* `Bzip2.failed_cases`: A bzip2 step that fails moves nothing, or the code is one of these.
-/

namespace Decompression

variable {P R ε : Type} {p p' : P} {input output : Cursor}

/-- A call that succeeds, and has counted the `n` bytes that it read and those that it wrote. -/
structure Primitive.Counted (q : Primitive P R ε) (p : P) (unread : List UInt8) (room : Nat)
    (p' : P) (yield : Yield R) (n : Nat) : Prop where
  call : q.decompress p unread room = (p', .ok yield)
  fits : yield.data.length ≤ room
  totalIn : q.totalIn p' = q.totalIn p + n
  totalOut : q.totalOut p' = q.totalOut p + yield.data.length

/-- No call lets a count go down. -/
structure Primitive.Grows (q : Primitive P R ε) : Prop where
  totalIn : ∀ (p : P) (unread : List UInt8) (room : Nat),
    q.totalIn p ≤ q.totalIn (q.decompress p unread room).1
  totalOut : ∀ (p : P) (unread : List UInt8) (room : Nat),
    q.totalOut p ≤ q.totalOut (q.decompress p unread room).1

namespace Adapter

variable {a : Adapter P R ε} {yield : Yield R} {n : Nat}

/-- A call that fails moves nothing. -/
theorem step_of_error {error : ε}
    (h : a.decompress p input.rest output.room = (p', .error error)) :
    a.step p input output = ⟨p', input, output, .error (a.report error)⟩ := by
  rw [step, h]

/-- One that does not fail moves both cursors, whatever its code stands for. -/
theorem step_of_ok (h : a.decompress p input.rest output.room = (p', .ok yield)) :
    a.step p input output = ⟨p', input.advance (a.totalIn p' - a.totalIn p),
      (output.overlay yield.data).advance (a.totalOut p' - a.totalOut p),
      a.conclude yield.code⟩ := by
  rw [step, h]

/-- What a step comes to. -/
theorem step_cases (a : Adapter P R ε) (p : P) (input output : Cursor) :
    (∃ p' error, a.decompress p input.rest output.room = (p', .error error) ∧
      a.step p input output = ⟨p', input, output, .error (a.report error)⟩) ∨
    ∃ p' yield, a.decompress p input.rest output.room = (p', .ok yield) ∧
      a.step p input output = ⟨p', input.advance (a.totalIn p' - a.totalIn p),
        (output.overlay yield.data).advance (a.totalOut p' - a.totalOut p),
        a.conclude yield.code⟩ := by
  rcases hcall : a.decompress p input.rest output.room with ⟨p', error | yield⟩
  · exact .inl ⟨p', error, rfl, step_of_error hcall⟩
  · exact .inr ⟨p', yield, rfl, step_of_ok hcall⟩

/-- They are moved by as much as the counts have grown, also if the step fails then. -/
theorem index_of_ok (ha : a.Grows)
    (h : a.decompress p input.rest output.room = (p', .ok yield)) :
    (a.step p input output).input.index + a.totalIn p = input.index + a.totalIn p' ∧
      (a.step p input output).output.index + a.totalOut p = output.index + a.totalOut p' := by
  have hin := ha.totalIn p input.rest output.room
  have hout := ha.totalOut p input.rest output.room
  rw [h] at hin hout
  dsimp only at hin hout
  rw [step_of_ok h]
  simp only [Cursor.advance, Cursor.overlay]
  omega

/-- A step succeeds only if the call does, and its code means that. -/
theorem call_of_outcome {status : Status} (h : (a.step p input output).outcome = .ok status) :
    ∃ yield, a.decompress p input.rest output.room = ((a.step p input output).session, .ok yield) ∧
      a.conclude yield.code = .ok status := by
  rcases a.step_cases p input output with ⟨_, _, _, hstep⟩ | ⟨p', yield, hcall, hstep⟩
  · rw [hstep] at h
    cases h
  · rw [hstep] at h ⊢
    exact ⟨yield, hcall, h⟩

/-- The cursors are moved past what has been counted. -/
theorem step_of_counted (h : a.Counted p input.rest output.room p' yield n) :
    a.step p input output =
      ⟨p', input.advance n, output.fill yield.data, a.conclude yield.code⟩ := by
  have hin : a.totalIn p' - a.totalIn p = n := by rw [h.totalIn, Nat.add_sub_cancel_left]
  have hout : a.totalOut p' - a.totalOut p = min yield.data.length output.room := by
    rw [h.totalOut, Nat.add_sub_cancel_left, Nat.min_eq_left h.fits]
  rw [step_of_ok h.call, hin, hout, Cursor.fill]

end Adapter

namespace Deflate

open Decompressor

theorem status_eq_streamEnd_iff {code : ReturnCode} :
    code.status = .streamEnd ↔ code = .streamEnd := by
  cases code <;> decide

-- Also if no byte was given and some are wanted.
theorem status_eq_progress_iff {code : ReturnCode} :
    code.status = .progress ↔ code ≠ .streamEnd := by
  cases code <;> decide

-- Every pass adds to the counts.
theorem counts_grow_passes (fuel : Nat) (engine : Engine) (held : List Bool)
    (unread : List UInt8) (totalIn totalOut room : Nat) (sent : List UInt8) :
    totalIn ≤ (passes fuel engine held unread totalIn totalOut room sent).1.totalIn ∧
      totalOut ≤ (passes fuel engine held unread totalIn totalOut room sent).1.totalOut := by
  induction fuel generalizing engine held unread totalIn totalOut room sent with
  | zero =>
      unfold passes
      split
      · exact ⟨Nat.le_refl _, Nat.le_add_right _ _⟩
      · dsimp only
        rw [ite_self]
        exact ⟨Nat.le_add_right _ _, Nat.le_add_right _ _⟩
  | succ fuel ih =>
      unfold passes
      split
      · exact ⟨Nat.le_refl _, Nat.le_add_right _ _⟩
      next halt _ =>
        dsimp only
        split
        · exact ⟨Nat.le_add_right _ _, Nat.le_add_right _ _⟩
        · have hlater := ih halt.engine halt.held (unread.drop halt.consumed)
            (totalIn + halt.consumed) (totalOut + (halt.written.reverse.take room).length)
            (room - (halt.written.reverse.take room).length)
            ((halt.written.reverse.take room).reverse ++ sent)
          omega

theorem counts_grow (d : Decompressor) (unread : List UInt8) (room : Nat) :
    d.totalIn ≤ (d.decompress unread room).1.totalIn ∧
      d.totalOut ≤ (d.decompress unread room).1.totalOut := by
  rcases d with ⟨error | engine, held, _ | ⟨b, pending⟩, totalIn, totalOut⟩
  · exact ⟨Nat.le_refl _, Nat.le_refl _⟩
  · exact ⟨Nat.le_refl _, Nat.le_refl _⟩
  · exact counts_grow_passes room engine held unread totalIn totalOut room []
  · exact ⟨Nat.le_refl _, Nat.le_add_right _ _⟩

theorem primitive_grows : primitive.Grows :=
  ⟨fun d unread room => (counts_grow d unread room).1,
    fun d unread room => (counts_grow d unread room).2⟩

/-- Whatever the primitive does, a step that fails moves nothing. -/
theorem unmoved_of_failed {q : Primitive P ReturnCode Error} {error : StepError}
    (h : ((adapter q).step p input output).outcome = .error error) :
    ((adapter q).step p input output).input = input ∧
      ((adapter q).step p input output).output = output := by
  rcases (adapter q).step_cases p input output with ⟨_, _, _, hstep⟩ | ⟨_, _, _, hstep⟩
  · rw [hstep]
    exact ⟨rfl, rfl⟩
  · rw [hstep] at h
    cases h

end Deflate

namespace Bzip2

/-- Four codes are failures: those of a compression, and that there is not enough memory. -/
theorem conclude_eq_error_iff {code : ReturnCode} {error : StepError} :
    code.conclude = .error error ↔
      (code = .flushOk ∨ code = .runOk ∨ code = .finishOk) ∧
        error = .ofText sequenceError "unexpected compression status" ∨
      code = .memNeeded ∧ error = .ofText memError "out of memory" := by
  cases code <;> simp [ReturnCode.conclude, eq_comm]

/-- Whatever the primitive does, a step that fails moves nothing, or the call did not fail and has
    answered with one of these codes. The cursors have been moved then. -/
theorem failed_cases {q : Primitive P ReturnCode Error} {error : StepError}
    (h : ((adapter q).step p input output).outcome = .error error) :
    (((adapter q).step p input output).input = input ∧
      ((adapter q).step p input output).output = output ∧ ∃ e : Error, error = e.report) ∨
    ∃ p' yield, q.decompress p input.rest output.room = (p', .ok yield) ∧
      yield.code.conclude = .error error ∧
      ((adapter q).step p input output).input = input.advance (q.totalIn p' - q.totalIn p) ∧
      ((adapter q).step p input output).output =
        (output.overlay yield.data).advance (q.totalOut p' - q.totalOut p) := by
  rcases (adapter q).step_cases p input output with ⟨_, e, _, hstep⟩ | ⟨p', yield, hcall, hstep⟩
  · rw [hstep] at h ⊢
    exact .inl ⟨rfl, rfl, e, (Except.error.inj h).symm⟩
  · rw [hstep] at h ⊢
    exact .inr ⟨p', yield, hcall, h, rfl, rfl⟩

section Calls

theorem counts_grow (d : Decompressor) (unread : List UInt8) (room : Nat) :
    d.totalIn ≤ (d.decompress unread room).1.totalIn ∧
      d.totalOut ≤ (d.decompress unread room).1.totalOut := by
  rcases d with ⟨error | engine, held, totalIn, totalOut⟩
  · exact ⟨Nat.le_refl _, Nat.le_refl _⟩
  · change totalIn ≤ (Decompressor.advance engine held totalIn totalOut unread room).1.totalIn ∧
      totalOut ≤ (Decompressor.advance engine held totalIn totalOut unread room).1.totalOut
    unfold Decompressor.advance
    split
    · exact ⟨Nat.le_refl _, Nat.le_refl _⟩
    · split
      · exact ⟨Nat.le_refl _, Nat.le_add_right _ _⟩
      · exact ⟨Nat.le_add_right _ _, Nat.le_add_right _ _⟩

theorem primitive_grows : primitive.Grows :=
  ⟨fun d unread room => (counts_grow d unread room).1,
    fun d unread room => (counts_grow d unread room).2⟩

variable {s s' : Session} {engine : Engine} {halt : Halt Engine} {held : List Bool}
  {unread : List UInt8} {room : Nat}

/-- A call is a run of the machine, unless the stream is over. -/
theorem decompress_of_run (totalIn totalOut : Nat) (hrunning : ¬ engine.phase.isDone = true)
    (hrun : machine.run engine room held unread = .ok halt) :
    primitive.decompress ⟨.ok engine, held, totalIn, totalOut⟩ unread room =
      (⟨.ok halt.engine, halt.held, totalIn + halt.consumed,
        totalOut + halt.written.reverse.length⟩,
        .ok ⟨halt.written.reverse, Decompressor.codeOf halt.standing⟩) := by
  change Decompressor.advance engine held totalIn totalOut unread room = _
  rw [Decompressor.advance, if_neg hrunning, hrun]

/-- Only such a call succeeds. -/
theorem run_of_decompress {yield : Yield ReturnCode}
    (h : primitive.decompress s unread room = (s', .ok yield)) :
    ∃ engine halt, s.engine = .ok engine ∧ engine.phase.isDone = false ∧
      machine.run engine room s.held unread = .ok halt ∧ s'.engine = .ok halt.engine ∧
      yield.code = Decompressor.codeOf halt.standing := by
  rcases s with ⟨error | engine, held, totalIn, totalOut⟩
  · cases h
  · change Decompressor.advance engine held totalIn totalOut unread room = _ at h
    rw [Decompressor.advance] at h
    split at h
    next => cases h
    next hrunning =>
      rcases hrun : machine.run engine room held unread with breakdown | halt <;> rw [hrun] at h
      · cases h
      · cases h
        exact ⟨engine, halt, rfl, Bool.not_eq_true _ ▸ hrunning, hrun, rfl, rfl⟩

/-- And its code is one of the two that are meant for decompression. -/
theorem conclude_codeOf (standing : Standing) : (Decompressor.codeOf standing).conclude =
    .ok (if standing = .done then .streamEnd else .progress) := by
  cases standing <;> rfl

end Calls

end Bzip2

end Decompression
