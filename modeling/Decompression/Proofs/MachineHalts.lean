import Decompression.Proofs.Adapter
import Decompression.Proofs.Fullness
import Decompression.Proofs.MachinePaths

/-!
# Where Bit Machines Stop

A machine that writes what it owes and takes in what it is given stops for one of three
reasons: it is over, it has used up its room, or it has taken in everything. Such a machine is
diligent.

The bzip2 machine is diligent, and so its sessions fill their buffers. What takes an argument
is that a machine which has stopped for want of input has nothing to write when it is run again
without any. It may forget that it was within the codes of a block, and take the bits that it
holds back for something else; but there are less than five of them, and a codeword length
takes five to begin with.

## Main definitions

* `BitMachine.Diligent`: A machine that stops only if it has to.
* `Bzip2.Engine.Idle`: There are fewer bits than are asked for.
* `Bzip2.Engine.Mute`: Nothing will be written without further input.
* `Bzip2.Session.Runs`: A step that succeeds, and the run of the machine that it is.

## Theorems

* `BitMachine.Diligent.run`: A diligent machine exhausts its room or its input.
* `Bzip2.machine_diligent`: The bzip2 machine is diligent.
* `Bzip2.Engine.mute_of_pause`: A machine that was left without input is mute.
* `Bzip2.step_of_run`, `Bzip2.runs_of_step`: A step that succeeds is a run of the machine.
* `Bzip2.step_of_mute`: A mute session writes nothing without further input.
* `Bzip2.brimming`: Bzip2 sessions fill their buffers.
-/

namespace Decompression

namespace BitMachine

variable {ε E : Type} {m : BitMachine ε E} {P : E → List Bool → Prop} {e : E} {room : Nat}
  {held : List Bool} {bytes : List UInt8} {halt : Halt E}

/-! ## Diligence -/

/-- A machine that writes what it owes as far as there is room, and stops within its input only for
    want of room. When it wants more bits than there are, it and they are as `P` says. -/
structure Diligent (m : BitMachine ε E) (P : E → List Bool → Prop) : Prop where
  fits : ∀ {e e' : E} {room : Nat} {new : List UInt8} {standing : Standing},
    m.settle e room = ⟨e', new, .ok standing⟩ → new.length ≤ room
  blocked : ∀ {e e' : E} {room : Nat} {new : List UInt8},
    m.settle e room = ⟨e', new, .ok .blocked⟩ → new.length = room
  takes : ∀ {e e' : E} {s : Supply}, m.prepare e s ≠ (e', .room)
  starved : ∀ {e e' e'' : E} {room : Nat} {new : List UInt8} {s : Supply} {appetite : Appetite},
    m.settle e room = ⟨e', new, .ok .hungry⟩ → m.prepare e' s = (e'', appetite) →
    (appetite = .bit → s.held = []) → P e'' s.held

/-- The machine was left without input. -/
def Paused (m : BitMachine ε E) (P : E → List Bool → Prop) (e : E) (held : List Bool) : Prop :=
  ∃ before, e = m.pause before ∧ P before held

/-- A diligent machine exhausts its room or its input. -/
theorem Diligent.run (hm : m.Diligent P) (hkeeps : m.returns .hungry = false)
    (h : m.run e room held bytes = .ok halt) :
    Exhausts (m.Paused P) room bytes.length halt := by
  rcases halts_of_run h with ⟨taken, out, z, new, e', spare, hhalts⟩
  refine hhalts.exhausts hm.fits hkeeps (fun hblocked => ?_) (fun hhungry => ?_)
  · have hcloses := hhalts.closes
    rw [hblocked] at hcloses
    cases hcloses with
    | settled hsettle _ => exact hm.blocked hsettle
    | crowded _ hprepare => exact absurd hprepare hm.takes
  · have hcloses := hhalts.closes
    rw [hhungry] at hcloses
    cases hcloses with
    | settled _ hwaits => exact absurd rfl hwaits
    | starved hsettle hprepare _ hnothing =>
        exact ⟨e', (hhalts.hungry hhungry).2, hm.starved hsettle hprepare hnothing⟩

/-- A run without further input is one over the bits that were held back. -/
theorem runBits_of_run_nil (h : m.run e room held [] = .ok halt) :
    ∃ before, m.runBits e room [] 0 0 held = .ok before ∧ halt.written = before.written ∧
      halt.standing = before.standing := by
  rw [BitMachine.run, runBytes_nil] at h
  rcases map_eq_ok h with ⟨after, hafter, rfl⟩
  rw [giveBack_written, giveBack_standing]
  rcases ifHungry_cases hafter with ⟨before, hbits, ⟨_, hpaused⟩ | ⟨_, rfl⟩⟩
  · cases hpaused
    exact ⟨before, hbits, rfl, rfl⟩
  · exact ⟨before, hbits, rfl, rfl⟩

end BitMachine

/-! ## The bzip2 machine -/

namespace Bzip2

open BitMachine

variable {e : Engine} {held : List Bool}

-- A block takes up as much room as it is given, unless it ends before.
theorem length_drain {room : Nat} {u : Unroller} {written new : List UInt8}
    {drained : Unroller.Drained} (h : u.drain room written = (drained, new)) :
    (∀ u', drained = .blocked u' → new.length = room + written.length) ∧
      (∀ check, drained = .finished check → new.length ≤ room + written.length) := by
  induction room generalizing u written with
  | zero =>
      rw [Unroller.drain] at h
      split at h
      · split at h
        · cases h
          exact ⟨fun _ _ => (Nat.zero_add _).symm, fun _ hc => by cases hc⟩
        · cases h
          exact ⟨(fun _ hc => by cases hc), fun _ hc => by cases hc⟩
      · cases h
        exact ⟨(fun _ hc => by cases hc), fun _ _ => Nat.le_add_left _ _⟩
      · cases h
        exact ⟨fun _ _ => (Nat.zero_add _).symm, fun _ hc => by cases hc⟩
  | succ room ih =>
      rw [Unroller.drain] at h
      split at h
      · split at h
        next hoverlooked =>
          rw [Unroller.isOverlooked] at hoverlooked
          cases hoverlooked
        next =>
          cases h
          exact ⟨(fun _ hc => by cases hc), fun _ hc => by cases hc⟩
      · cases h
        exact ⟨(fun _ hc => by cases hc), fun _ _ => Nat.le_add_left _ _⟩
      · have hlater := ih h
        rw [List.length_cons, Nat.add_comm _ 1, ← Nat.add_assoc] at hlater
        exact hlater

namespace Engine

/-- The machine owes nothing, and there are fewer bits than it asks for. -/
def Idle (e : Engine) (held : List Bool) : Prop :=
  (∀ room, e.settle room = ⟨e, [], .ok .hungry⟩) ∧
    held.length ≤ e.phase.need e.field.length - 1

/-- A machine that wants input has written all that it owes. -/
theorem settle_of_hungry {e' : Engine} {room : Nat} {new : List UInt8}
    (h : e.settle room = ⟨e', new, .ok .hungry⟩) (room' : Nat) :
    e'.settle room' = ⟨e', [], .ok .hungry⟩ := by
  rcases e with ⟨bytewise, capacity, combined, phase, field⟩
  cases phase with
  | writing checksum unroller =>
      rw [settle] at h
      rcases hdrain : unroller.drain room [] with ⟨_ | check | _, written⟩ <;> rw [hdrain] at h
      · cases h
      · dsimp only at h
        split at h <;> cases h
        rfl
      · cases h
  | done => cases h
  | _ =>
      cases h
      rfl

theorem settle_fits {e' : Engine} {room : Nat} {new : List UInt8} {standing : Standing}
    (h : e.settle room = ⟨e', new, .ok standing⟩) :
    new.length ≤ room ∧ (standing = .blocked → new.length = room) := by
  rcases e with ⟨bytewise, capacity, combined, phase, field⟩
  cases phase with
  | writing checksum unroller =>
      rw [settle] at h
      rcases hdrain : unroller.drain room [] with ⟨u | check | _, written⟩ <;> rw [hdrain] at h
      · cases h
        have hall := (length_drain hdrain).1 u rfl
        exact ⟨Nat.le_of_eq hall, fun _ => hall⟩
      · dsimp only at h
        split at h <;> cases h
        exact ⟨(length_drain hdrain).2 check rfl, Standing.noConfusion⟩
      · cases h
  | _ =>
      cases h
      exact ⟨Nat.zero_le _, Standing.noConfusion⟩

end Engine

theorem machine_diligent : machine.Diligent Engine.Idle where
  fits h := (Engine.settle_fits h).1
  blocked h := (Engine.settle_fits h).2 rfl
  takes := by
    intro e e' s h
    change e.prepare s = _ at h
    rw [Engine.prepare] at h
    split at h <;> cases h
  starved := by
    intro e e' e'' room new s appetite hsettle hprepare hnothing
    change e'.prepare s = _ at hprepare
    rw [Engine.prepare] at hprepare
    split at hprepare
    next hfew =>
      cases hprepare
      exact ⟨Engine.settle_of_hungry hsettle, List.drop_eq_nil_iff.mp (List.isEmpty_iff.mp hfew)⟩
    next hmany =>
      cases hprepare
      rw [hnothing rfl, List.drop_nil] at hmany
      exact absurd rfl hmany

/-! ## Machines that were left without input -/

namespace Engine

/-- Nothing will be written without further input: there are fewer bits than are asked for, or the
    machine has gone back to before the codes and does not get to the first length of one. -/
inductive Mute (e : Engine) (held : List Bool) : Prop
  | idle (h : e.Idle held)
  | restarted {outline : Outline} {selectors : List Nat} {rank : Nat}
      (phase : e.phase = .spareSelector outline selectors rank) (field : e.field = .empty)
      (few : held.length < 5)

-- Within the codes, five bits are asked for at most.
theorem need_le_of_tables {phase : Phase} {tables : Tables} (h : phase.tables? = some tables)
    (taken : Nat) : phase.need taken ≤ 5 := by
  cases phase with
  | firstLength _ => exact Nat.sub_le 5 _
  | lengthFits _ _ => exact Nat.le_trans (Nat.sub_le 1 _) (by decide)
  | lengthChange _ _ => exact Nat.le_trans (Nat.sub_le 1 _) (by decide)
  | _ => cases h

/-- A machine that was left without input is mute. -/
theorem mute_of_pause (h : e.Idle held) : e.pause.Mute held := by
  rw [pause]
  split
  next outline selectors _ _ rank htables =>
    have hneed := need_le_of_tables htables e.field.length
    have hfew := h.2
    exact .restarted rfl rfl (by omega)
  next => exact .idle h

-- Before the codes, a bit leads to another one, to the codes, or to an error.
theorem mute_of_feed {outline : Outline} {selectors : List Nat} {rank unread : Nat}
    (hphase : e.phase = .spareSelector outline selectors rank) (hfield : e.field = .empty)
    {b : Bool} {bits : List Bool} (hfew : (b :: bits).length < 5) {next : Engine}
    (hfeed : e.feed unread b = .ok next) : next.Mute bits := by
  have hbits : bits.length < 4 := Nat.lt_of_succ_lt_succ hfew
  rcases e with ⟨bytewise, capacity, combined, phase, field⟩
  dsimp only at hphase hfield
  subst hphase hfield
  have hadvance : advance ⟨bytewise, capacity, combined, .spareSelector outline selectors rank,
      .empty⟩ unread (2 * 0 + bitValue b) = .ok next := hfeed
  rw [advance, receive, receiveSpareSelector] at hadvance
  · split at hadvance
    next => cases hadvance
    next phase hreceive =>
      cases hadvance
      split at hreceive
      · split at hreceive
        · cases hreceive
        · cases hreceive
          exact .restarted rfl rfl (Nat.lt_succ_of_lt hbits)
      · cases hreceive
        exact .idle ⟨fun _ => rfl, Nat.le_of_lt hbits⟩
  · rintro ⟨⟩

-- A machine that is mute owes nothing, and takes in bits only before the codes.
theorem settle_of_mute (h : e.Mute held) (room : Nat) : e.settle room = ⟨e, [], .ok .hungry⟩ := by
  cases h with
  | idle h => exact h.1 room
  | restarted hphase _ _ =>
      rcases e with ⟨bytewise, capacity, combined, phase, field⟩
      dsimp only at hphase
      subst hphase
      rfl

/-- Nothing is written without further input, and the end is not met. -/
theorem nothing_of_mute {consumed unread room : Nat} {written : List UInt8} {halt : Halt Engine}
    (h : machine.Stops consumed unread e room written held halt) (hmute : e.Mute held) :
    halt.written = written ∧ halt.standing = .hungry := by
  induction h with
  | settled hsettle hwaits =>
      cases (settle_of_mute hmute _).symm.trans hsettle
      exact absurd rfl hwaits
  | crowded _ hprepare => exact absurd hprepare machine_diligent.takes
  | starved hsettle _ _ _ =>
      cases (settle_of_mute hmute _).symm.trans hsettle
      exact ⟨rfl, rfl⟩
  | fed hsettle hprepare hfeed _ ih =>
      cases (settle_of_mute hmute _).symm.trans hsettle
      cases hmute with
      | idle hidle =>
          change prepare _ _ = _ at hprepare
          rw [prepare, if_pos] at hprepare
          · cases hprepare
          · rw [List.isEmpty_iff, List.drop_eq_nil_iff]
            exact hidle.2
      | restarted hphase hfield hfew =>
          change prepare _ _ = _ at hprepare
          rw [prepare] at hprepare
          split at hprepare <;> cases hprepare
          exact ih (mute_of_feed hphase hfield hfew hfeed)

end Engine

/-! ## Bzip2 sessions -/

/-- A step that succeeds, and the run of the machine that it is. -/
structure Session.Runs (s : Session) (input output : Cursor) (engine : Engine) (halt : Halt Engine)
    (stepped : Stepped Session) : Prop where
  alive : s.engine = .ok engine
  running : engine.phase.isDone = false
  run : machine.run engine output.room s.held input.rest = .ok halt
  fits : halt.written.reverse.length ≤ output.room
  after : stepped = ⟨⟨.ok halt.engine, halt.held, s.totalIn + halt.consumed,
    s.totalOut + halt.written.reverse.length⟩, input.advance halt.consumed,
    output.fill halt.written.reverse, (Decompressor.codeOf halt.standing).conclude⟩

section Sessions

variable {s : Session} {input output : Cursor} {engine : Engine} {halt : Halt Engine}
  {stepped : Stepped Session} {status : Status}

-- What the machine writes fits.
theorem fits_of_run {room : Nat} {held : List Bool} {unread : List UInt8}
    (hrun : machine.run engine room held unread = .ok halt) :
    halt.written.reverse.length ≤ room := by
  have hroom := (machine_diligent.run rfl hrun).room
  rw [List.length_reverse]
  omega

/-- A step that runs the machine moves the cursors past what it read and wrote. -/
theorem step_of_run {held : List Bool} (totalIn totalOut : Nat)
    (hrunning : ¬ engine.phase.isDone = true)
    (hrun : machine.run engine output.room held input.rest = .ok halt) :
    Session.step ⟨.ok engine, held, totalIn, totalOut⟩ input output =
      ⟨⟨.ok halt.engine, halt.held, totalIn + halt.consumed,
        totalOut + halt.written.reverse.length⟩, input.advance halt.consumed,
        output.fill halt.written.reverse, (Decompressor.codeOf halt.standing).conclude⟩ := by
  have hcall := decompress_of_run totalIn totalOut hrunning hrun
  exact Adapter.step_of_counted (a := adapter primitive) ⟨hcall, fits_of_run hrun, rfl, rfl⟩

/-- Every step that succeeds is such a run. -/
theorem runs_of_step (h : s.step input output = stepped) (houtcome : stepped.outcome = .ok status) :
    ∃ engine halt, s.Runs input output engine halt stepped := by
  subst h
  rcases Adapter.call_of_outcome houtcome with ⟨_, hcall, _⟩
  rcases run_of_decompress hcall with ⟨engine, halt, hengine, hrunning, hrun, _, _⟩
  rcases s with ⟨_, held, totalIn, totalOut⟩
  cases hengine
  exact ⟨engine, halt, rfl, hrunning, hrun, fits_of_run hrun,
    step_of_run totalIn totalOut (ne_true_of_eq_false hrunning) hrun⟩

theorem Session.Runs.front {buffer : List UInt8}
    (h : s.Runs input (.ofBytes buffer) engine halt stepped) :
    stepped.output.front = halt.written.reverse := by
  rw [h.after]
  exact (fill_ofBytes h.fits).2

/-- A step that fails moves nothing: the machine does not lead to the other codes. -/
theorem unmoved_of_step {error : StepError} (h : (s.step input output).outcome = .error error) :
    (s.step input output).input = input ∧ (s.step input output).output = output := by
  rcases failed_cases h with ⟨hinput, houtput, _⟩ | ⟨s', yield, hcall, hcode, _⟩
  · exact ⟨hinput, houtput⟩
  · rcases run_of_decompress hcall with ⟨_, halt, _, _, _, _, hyield⟩
    rw [hyield, conclude_codeOf] at hcode
    cases hcode

/-- A step that leaves room in its buffer while the stream goes on has read everything, and leaves a
    machine behind that has nothing more to write. -/
theorem mute_of_runs (h : s.Runs input output engine halt stepped)
    (houtcome : stepped.outcome = .ok .progress) (hshort : halt.written.length < output.room) :
    stepped.input.rest = [] ∧ halt.engine.Mute halt.held := by
  have hexhausts := machine_diligent.run rfl h.run
  have hroom := hexhausts.room
  have hafter := h.after
  subst hafter
  have hhungry : halt.standing = .hungry := by
    cases hstanding : halt.standing with
    | hungry => rfl
    | blocked =>
        have hnone := hexhausts.blocked hstanding
        omega
    | done =>
        rw [hstanding] at houtcome
        cases houtcome
  rcases hexhausts.hungry hhungry with ⟨hconsumed, before, hpause, hidle⟩
  constructor
  · rw [rest_advance, hconsumed, List.drop_length]
  · rw [hpause]
    exact Engine.mute_of_pause hidle

/-- Without further input, a session that has nothing more to write writes nothing, whether the step
    fails or not, and does not come to its end. -/
theorem step_of_mute (hengine : s.engine = .ok engine) (hmute : engine.Mute s.held)
    (hrest : input.rest = []) (output : Cursor) :
    (s.step input output).output = output ∧ (s.step input output).outcome ≠ .ok .streamEnd := by
  rcases houtcome : (s.step input output).outcome with error | status
  · exact ⟨(unmoved_of_step houtcome).2, nofun⟩
  · rcases runs_of_step rfl houtcome with ⟨engine', halt, hruns⟩
    cases hengine.symm.trans hruns.alive
    have hrun := hruns.run
    rw [hrest] at hrun
    rcases runBits_of_run_nil hrun with ⟨before, hbits, hwritten, hstanding⟩
    rcases Engine.nothing_of_mute (stops_of_runBits hbits) hmute with ⟨hnothing, hhungry⟩
    have hafter := hruns.after
    rw [hwritten, hnothing, hstanding, hhungry] at hafter
    rw [← houtcome, hafter]
    exact ⟨Cursor.fill_nil output, nofun⟩

/-- Bzip2 sessions fill their buffers. -/
theorem brimming (small : Bool) : (codec small).Brimming where
  fits := by
    intro s input buffer stepped status _ _ _ hstep houtcome _
    rcases runs_of_step hstep houtcome with ⟨engine, halt, hruns⟩
    rw [hruns.front]
    exact hruns.fits
  drains := by
    intro s input buffer stepped _ _ _ hstep houtcome hshort
    rcases runs_of_step hstep houtcome with ⟨engine, halt, hruns⟩
    rw [hruns.front, List.length_reverse] at hshort
    exact (mute_of_runs hruns houtcome hshort).1
  waits := by
    intro s input buffer buffer' stepped status _ _ _ hstep houtcome hshort _ _
    rcases runs_of_step hstep houtcome with ⟨engine, halt, hruns⟩
    rw [hruns.front, List.length_reverse] at hshort
    rcases mute_of_runs hruns houtcome hshort with ⟨hrest, hmute⟩
    have hengine : stepped.session.engine = .ok halt.engine := by rw [hruns.after]
    have hheld : stepped.session.held = halt.held := by rw [hruns.after]
    have hstep' := step_of_mute hengine (hheld ▸ hmute) hrest (.ofBytes buffer')
    exact congrArg Cursor.front hstep'.1

end Sessions

end Bzip2

end Decompression
