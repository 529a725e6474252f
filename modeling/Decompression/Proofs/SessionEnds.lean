import Decompression.Proofs.Adapter
import Decompression.Proofs.Completion
import Decompression.Proofs.Copier
import Decompression.Proofs.MachinePaths

/-!
# Sessions That Are Over

The codecs do not agree on what a session does that is over and is run again. With or without
header and checksum, a deflate session rests: it says once more that its stream is over, and
moves nothing. A bzip2 session fails.

Either follows from what the state of such a session is. A deflate session reports the end of
its stream exactly if its machine is over and nothing is left to deliver, and then it stays as
it is. A bzip2 session reports it only if the machine does, whose phase tells whether it may.

## Main definitions

* `Deflate.Session.IsOver`: The session has come to its end.

## Theorems

* `Decoded.atEnd`: Proving something of all sessions that are over.
* `Deflate.isOver_of_decoded`, `Bzip2.isDone_of_decoded`: The state after the end.
* `Deflate.restsAtEnd`, `Bzip2.refusesAtEnd`: What another step does.
-/

namespace Decompression

/-- What holds of a session as it reports the end of its stream, and still holds if it is run
    again and does not fail, holds of every session that is over. -/
theorem Decoded.atEnd {S M : Type} {c : Codec S M} {P : S → Prop}
    (hend : ∀ {s : S} {input : Cursor} {buffer : List UInt8},
      (c.step s input (.ofBytes buffer)).outcome = .ok .streamEnd →
      P (c.step s input (.ofBytes buffer)).session)
    (hkeep : ∀ {s : S} {input : Cursor} {buffer : List UInt8} {status : Status}, P s →
      (c.step s input (.ofBytes buffer)).outcome = .ok status →
      P (c.step s input (.ofBytes buffer)).session)
    {s : S} {u v : List UInt8} (h : Decoded c s u v true) : P s := by
  generalize hended : true = ended at h
  induction h with
  | fresh _ => cases hended
  | @step s u v ended input buffer stepped status _ _ _ hstep houtcome ih =>
      subst hstep
      cases ended with
      | true => exact hkeep (ih rfl) houtcome
      | false =>
          cases status with
          | progress => cases hended
          | streamEnd => exact hend houtcome

/-! ## Deflate sessions that are over -/

namespace Deflate

theorem Engine.over_of_isDone {e : Engine} (h : e.isDone = true) : machine.Over e := by
  intro room
  rcases e with ⟨wrapped, phase, field, skip, position, pace, topUp, owed, window, check⟩
  rw [Engine.isDone, Bool.and_eq_true, beq_iff_eq] at h
  rcases h with ⟨hphase, howed⟩
  dsimp only at hphase howed
  subst howed
  simp only [machine, Engine.settle, Engine.standing, hphase, if_true]

/-- The stream is over and everything has been delivered. -/
def Session.IsOver : Session → Prop
  | ⟨.ok engine, _, [], _, _⟩ => engine.isDone = true
  | _ => False

namespace Decompressor

theorem codeOf_eq_streamEnd_iff {engine : Engine} {pending : List UInt8} {starved : Bool} :
    codeOf engine pending starved = .streamEnd ↔ engine.isDone = true ∧ pending = [] := by
  rw [codeOf, ← List.isEmpty_iff, ← Bool.and_eq_true]
  split
  next hboth => exact ⟨fun _ => hboth, fun _ => rfl⟩
  next hnot =>
    refine ⟨fun h => ?_, fun h => absurd h hnot⟩
    cases starved <;> cases h

theorem isOver_of_code {engine : Engine} {held : List Bool} {pending : List UInt8}
    {totalIn totalOut : Nat} {starved : Bool} (h : codeOf engine pending starved = .streamEnd) :
    Session.IsOver ⟨.ok engine, held, pending, totalIn, totalOut⟩ := by
  rcases codeOf_eq_streamEnd_iff.mp h with ⟨hdone, rfl⟩
  exact hdone

theorem isOver_of_passes {fuel : Nat} {engine : Engine} {held : List Bool}
    {unread sent : List UInt8} {totalIn totalOut room : Nat} {s : Session}
    {yield : Yield ReturnCode}
    (h : passes fuel engine held unread totalIn totalOut room sent = (s, .ok yield))
    (hcode : yield.code = .streamEnd) : s.IsOver := by
  induction fuel generalizing engine held unread totalIn totalOut room sent with
  | zero =>
      rw [passes] at h
      split at h
      · cases h
      · dsimp only at h
        split at h <;> cases h <;> exact isOver_of_code hcode
  | succ fuel ih =>
      rw [passes] at h
      split at h
      · cases h
      · dsimp only at h
        split at h
        · cases h
          exact isOver_of_code hcode
        · exact ih h

theorem isOver_of_decompress {s s' : Session} {unread : List UInt8} {room : Nat}
    {yield : Yield ReturnCode} (h : primitive.decompress s unread room = (s', .ok yield))
    (hcode : yield.code = .streamEnd) : s'.IsOver := by
  rcases s with ⟨error | engine, held, _ | ⟨b, pending⟩, totalIn, totalOut⟩
  · cases h
  · cases h
  · exact isOver_of_passes h hcode
  · cases h
    exact isOver_of_code hcode

theorem passes_of_isDone {engine : Engine} (h : engine.isDone = true) (fuel : Nat)
    (held : List Bool) (unread : List UInt8) (totalIn totalOut room : Nat) :
    passes fuel engine held unread totalIn totalOut room [] =
      (⟨.ok engine, held, [], totalIn, totalOut⟩, .ok ⟨[], .streamEnd⟩) := by
  have hcode : ∀ starved, codeOf engine [] starved = .streamEnd :=
    fun _ => codeOf_eq_streamEnd_iff.mpr ⟨h, rfl⟩
  rw [passes.eq_def, BitMachine.run_of_over (Engine.over_of_isDone h)]
  simp [h, close, hcode]

end Decompressor

namespace Session

theorem isOver_of_step {s : Session} {input output : Cursor}
    (h : (s.step input output).outcome = .ok .streamEnd) :
    (s.step input output).session.IsOver := by
  rcases Adapter.call_of_outcome h with ⟨yield, hcall, hcode⟩
  exact Decompressor.isOver_of_decompress hcall (status_eq_streamEnd_iff.mp (Except.ok.inj hcode))

theorem step_of_isOver {s : Session} (h : s.IsOver) (input output : Cursor) :
    s.step input output = ⟨s, input, output.fill [], .ok .streamEnd⟩ := by
  rcases s with ⟨error | engine, held, _ | ⟨b, pending⟩, totalIn, totalOut⟩
  · cases h
  · cases h
  · have hcall : primitive.decompress ⟨.ok engine, held, [], totalIn, totalOut⟩ input.rest
        output.room = (⟨.ok engine, held, [], totalIn, totalOut⟩, .ok ⟨[], .streamEnd⟩) :=
      Decompressor.passes_of_isDone h output.room held input.rest totalIn totalOut output.room
    exact Adapter.step_of_counted (a := adapter primitive) (n := 0)
      ⟨hcall, Nat.zero_le _, rfl, rfl⟩
  · cases h

end Session

theorem isOver_of_decoded {wrapped : Bool} {s : Session} {u v : List UInt8}
    (h : Decoded (codec wrapped) s u v true) : s.IsOver := by
  refine Decoded.atEnd (P := Session.IsOver) Session.isOver_of_step ?_ h
  intro s input buffer status hover _
  show (s.step input (.ofBytes buffer)).session.IsOver
  rw [Session.step_of_isOver hover]
  exact hover

/-- A session that is over rests. -/
theorem restsAtEnd (wrapped : Bool) : RestsAtEnd (codec wrapped) := by
  intro s u v h input buffer _ _
  have hstep : (codec wrapped).step s input (.ofBytes buffer) =
      ⟨s, input, (Cursor.ofBytes buffer).fill [], .ok .streamEnd⟩ :=
    Session.step_of_isOver (isOver_of_decoded h) input (.ofBytes buffer)
  have hfill : ((Cursor.ofBytes buffer).fill []).InBounds ∧
      ((Cursor.ofBytes buffer).fill []).front = [] := fill_ofBytes (Nat.zero_le _)
  rw [hstep]
  exact ⟨rfl, rfl, hfill.1, hfill.2, rfl⟩

end Deflate

/-! ## Bzip2 sessions that are over -/

namespace Bzip2

theorem Engine.over_of_isDone {e : Engine} (h : e.phase.isDone = true) : machine.Over e := by
  intro room
  rcases e with ⟨bytewise, capacity, combined, phase, field⟩
  cases phase with
  | done => rfl
  | _ => cases h

theorem Engine.isDone_of_settle (e : Engine) (room : Nat)
    (h : (machine.settle e room).standing = .ok .done) :
    (machine.settle e room).engine.phase.isDone = true := by
  have hstanding : ∀ e : Engine,
      Except.ok e.standing = (Except.ok .done : Except Error Standing) →
        e.phase.isDone = true := by
    intro e h
    rw [Engine.standing] at h
    split at h
    · assumption
    · cases h
  rcases e with ⟨bytewise, capacity, combined, phase, field⟩
  cases phase with
  | writing checksum unroller =>
      simp only [machine, Engine.settle] at h
      split at h
      · cases h
      · cases h
      · split at h <;> cases h
  | _ => exact hstanding _ h

theorem step_of_isDone {engine : Engine} (h : engine.phase.isDone = true) (held : List Bool)
    (totalIn totalOut : Nat) (input output : Cursor) :
    Session.step ⟨.ok engine, held, totalIn, totalOut⟩ input output =
      ⟨⟨.ok engine, held, totalIn, totalOut⟩, input, output, .error outOfSequence⟩ := by
  have hcall : Decompressor.advance engine held totalIn totalOut input.rest output.room =
      (⟨.ok engine, held, totalIn, totalOut⟩, .error .sequence) := if_pos h
  exact Adapter.step_of_error (a := adapter primitive) hcall

theorem isDone_of_step {s : Session} {input output : Cursor}
    (h : (s.step input output).outcome = .ok .streamEnd) :
    ∃ engine, (s.step input output).session.engine = .ok engine ∧ engine.phase.isDone = true := by
  rcases Adapter.call_of_outcome h with ⟨yield, hcall, hcode⟩
  rcases run_of_decompress hcall with ⟨_, halt, _, _, hrun, hengine, hyield⟩
  have hstanding : halt.standing = .done := by
    rw [show (adapter primitive).conclude yield.code = yield.code.conclude from rfl, hyield,
      conclude_codeOf] at hcode
    split at hcode
    · assumption
    · cases hcode
  exact ⟨halt.engine, hengine, BitMachine.run_done (P := fun e => e.phase.isDone = true)
    Engine.isDone_of_settle hrun hstanding⟩

theorem isDone_of_decoded {small : Bool} {s : Session} {u v : List UInt8}
    (h : Decoded (codec small) s u v true) :
    ∃ engine, s.engine = .ok engine ∧ engine.phase.isDone = true := by
  refine Decoded.atEnd (P := fun s => ∃ engine, s.engine = .ok engine ∧ engine.phase.isDone = true)
    isDone_of_step ?_ h
  -- Such a session cannot have been run again without failing.
  rintro ⟨_, held, totalIn, totalOut⟩ input buffer status ⟨engine, rfl, hdone⟩ houtcome
  have hrefused : (codec small).step ⟨.ok engine, held, totalIn, totalOut⟩ input
      (.ofBytes buffer) = _ := step_of_isDone hdone held totalIn totalOut input _
  rw [hrefused] at houtcome
  cases houtcome

/-- A session that is over fails if it is run again. -/
theorem refusesAtEnd (small : Bool) : RefusesAtEnd (codec small) outOfSequence := by
  intro s u v h input buffer _ _
  rcases s with ⟨engine, held, totalIn, totalOut⟩
  rcases isDone_of_decoded h with ⟨engine, rfl, hdone⟩
  have hstep : (codec small).step ⟨.ok engine, held, totalIn, totalOut⟩ input
      (.ofBytes buffer) = _ := step_of_isDone hdone held totalIn totalOut input _
  rw [hstep]
  exact ⟨rfl, rfl⟩

end Bzip2

end Decompression
