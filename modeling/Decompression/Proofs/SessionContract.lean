import Decompression.Proofs.Answers
import Decompression.Proofs.MachineHalts
import Decompression.Proofs.ReadingAhead
import Decompression.Proofs.SessionEnds

/-!
# The Contract of a Session

The chunk loop asks of a session that it moves its cursors past what it has read and written and no
further, and not at all if a step fails; that it counts what it writes; that it reads everything
before it waits, and does not write after that until there is something to read; and that the end of
its stream is not met before anything has been read, nor anything but the end, or a failure, after
it. All three codecs keep to this with any input, sound or corrupt, cut up in any way, and with any
room, up to the first failure.

A session moves its cursors by what its primitive has counted, so the counts have to be right, and
the machine is behind that and all the rest. What a session has read are the bits that its machine
has taken in and those that are held back, so nothing is read that is not accounted for; and what it
has written is what its machine has written, but for what a deflate session keeps pending.

A deflate session waits only if its machine has taken in every bit and owes nothing, so it goes on
waiting for as long as there is no input. A bzip2 machine may be left with bits that it takes for
something else when it is run again. It writes nothing then, but it may fail.

## Main definitions

* `Cursor.added`: What was written between two positions.
* `Lived`: A session that has been run.
* `Codec.Complies`: A step that is as it should be.
* `Codec.Dependable`: All steps of all sessions are.
* `Deflate.Session.Stands`, `Bzip2.Session.Stands`: What a session has read and written.
* `Deflate.Session.Delivers`: What a call of a deflate session comes to.

## Theorems

* `Lived.keeps`: What steps keep holds however a session is run.
* `Codec.Dependable.contract`, `Codec.Dependable.thorough`: What the chunk loop assumes of codecs.
* `Deflate.Session.delivers_of_passes`: The passes of a call.
* `Deflate.dependable`, `Bzip2.dependable`: The codecs are dependable.
* `Deflate.candid`, `Bzip2.not_candid`: Deflate sessions go on waiting, bzip2 sessions may fail.
* `sessions_dependable`: All of it.
-/

namespace Decompression

variable {S M : Type}

namespace Cursor

/-- The bytes that were written from one position to another. -/
def added (before after : Cursor) : List UInt8 :=
  after.front.drop before.index

theorem added_fill {c : Cursor} {data : List UInt8} (hin : c.InBounds) (h : data.length ≤ c.room) :
    c.added (c.fill data) = data := by
  rw [added, front_fill hin h, ← length_front hin, List.drop_left]

-- A buffer of one's own.
theorem ofBytes_inBounds (buffer : List UInt8) : (ofBytes buffer).InBounds :=
  Nat.zero_le _

theorem room_ofBytes_pos {buffer : List UInt8} (h : buffer ≠ []) : 0 < (ofBytes buffer).room :=
  List.length_pos_iff.mpr h

end Cursor

/-! ## Dependable codecs -/

/-- A session that has read the bytes `u` and written the bytes `v` in successful steps, each from
    anywhere in a buffer to anywhere in one that has room left, one of which was the end of its
    stream if `ended` is true. -/
inductive Lived (c : Codec S M) : S → List UInt8 → List UInt8 → Bool → Prop
  | fresh {memory memory' : M} {s : S} (start : c.start memory = (.ok s, memory')) :
      Lived c s [] [] false
  | step {s : S} {u v : List UInt8} {ended : Bool} {input output : Cursor} {stepped : Stepped S}
      {status : Status} (before : Lived c s u v ended) (read : input.InBounds)
      (written : output.InBounds) (room : 0 < output.room)
      (step : c.step s input output = stepped) (outcome : stepped.outcome = .ok status) :
      Lived c stepped.session (u ++ input.between stepped.input)
        (v ++ output.added stepped.output) (ended || decide (status = .streamEnd))

/-- A step of a session that has read the bytes `u`, and come to the end of its stream if `ended` is
    true, is as a step should be. -/
structure Codec.Complies (c : Codec S M) (u : List UInt8) (ended : Bool) (input output : Cursor)
    (stepped : Stepped S) : Prop where
  -- Both cursors move within their buffers, past what was read and what was written
  moves : ∀ {status : Status}, stepped.outcome = .ok status → ∃ n data, n ≤ input.room ∧
    data.length ≤ output.room ∧ stepped.input = input.advance n ∧ stepped.output = output.fill data
  -- Neither moves if the step fails
  fails : ∀ {error : StepError}, stepped.outcome = .error error →
    stepped.input = input ∧ stepped.output = output
  -- Going on without having written anything means that everything has been read; and the next step
  -- without further input writes nothing, be it that it fails, and does not meet the end
  waits : stepped.outcome = .ok .progress → output.added stepped.output = [] →
    stepped.input.rest = [] ∧ ∀ input' output' : Cursor, input'.rest = [] →
      (c.step stepped.session input' output').output = output' ∧
      (c.step stepped.session input' output').outcome ≠ .ok .streamEnd
  -- No stream is over before something has been read
  begins : stepped.outcome = .ok .streamEnd → u ++ input.between stepped.input ≠ []
  -- No session goes on past the end
  stays : ended = true → stepped.outcome ≠ .ok .progress

/-- However a session of the codec is run, what it has read and written is accounted for by the
    state that it is in, it has counted what it has written, and its next step is as it should
    be. -/
structure Codec.Dependable (c : Codec S M) (Accounts : S → List UInt8 → List UInt8 → Prop) :
    Prop where
  accounts : ∀ {s : S} {u v : List UInt8} {ended : Bool}, Lived c s u v ended → Accounts s u v
  total : ∀ {s : S} {u v : List UInt8} {ended : Bool}, Lived c s u v ended → c.totalOut s = v.length
  steps : ∀ {s : S} {u v : List UInt8} {ended : Bool} {input output : Cursor},
    Lived c s u v ended → input.InBounds → output.InBounds → 0 < output.room →
    c.Complies u ended input output (c.step s input output)

/-- What holds of a session when it is started and is kept by its steps holds however it is run. -/
theorem Lived.keeps {c : Codec S M} {I : S → List UInt8 → List UInt8 → Bool → Prop}
    (hfresh : ∀ {memory memory' : M} {s : S}, c.start memory = (.ok s, memory') → I s [] [] false)
    (hstep : ∀ {s : S} {u v : List UInt8} {ended : Bool} {input output : Cursor} {status : Status},
      I s u v ended → output.InBounds → 0 < output.room →
      (c.step s input output).outcome = .ok status →
      I (c.step s input output).session (u ++ input.between (c.step s input output).input)
        (v ++ output.added (c.step s input output).output) (ended || decide (status = .streamEnd)))
    {s : S} {u v : List UInt8} {ended : Bool} (h : Lived c s u v ended) : I s u v ended := by
  induction h with
  | fresh hstart => exact hfresh hstart
  | step _ _ hwritten hroom hstepped houtcome ih =>
      subst hstepped
      exact hstep ih hwritten hroom houtcome

/-! ## What is assumed of codecs -/

section Assumed

variable {c : Codec S M} {Accounts : S → List UInt8 → List UInt8 → Prop} {s : S}
  {u v : List UInt8} {ended : Bool}

theorem Decoded.lived (h : Decoded c s u v ended) : Lived c s u v ended := by
  induction h with
  | fresh hstart => exact .fresh hstart
  | step _ hbounds hroom hstep houtcome ih =>
      exact .step ih hbounds (Cursor.ofBytes_inBounds _) (Cursor.room_ofBytes_pos hroom) hstep
        houtcome

theorem Codec.Reached.lived (h : c.Reached s) : ∃ u v ended, Lived c s u v ended := by
  induction h with
  | fresh hstart => exact ⟨_, _, _, .fresh hstart⟩
  | step _ hbounds hroom hstep houtcome ih =>
      rcases ih with ⟨u, v, ended, hlived⟩
      exact ⟨_, _, _, .step hlived hbounds (Cursor.ofBytes_inBounds _)
        (Cursor.room_ofBytes_pos hroom) hstep houtcome⟩

/-- The next step into a buffer of one's own is as it should be. -/
theorem Codec.Dependable.next (hc : c.Dependable Accounts) (h : c.Reached s) {input : Cursor}
    {buffer : List UInt8} (hbounds : input.InBounds) (hbuffer : buffer ≠ []) :
    ∃ u ended, c.Complies u ended input (.ofBytes buffer) (c.step s input (.ofBytes buffer)) := by
  rcases h.lived with ⟨u, v, ended, hlived⟩
  exact ⟨u, ended,
    hc.steps hlived hbounds (Cursor.ofBytes_inBounds _) (Cursor.room_ofBytes_pos hbuffer)⟩

/-- Dependable codecs keep their cursors in bounds, and count what they write. -/
theorem Codec.Dependable.contract (hc : c.Dependable Accounts) : c.Contract where
  fresh hstart := hc.total (.fresh hstart)
  read := by
    rintro s input buffer stepped hreached hbounds hbuffer rfl
    rcases hc.next hreached hbounds hbuffer with ⟨u, ended, hcomplies⟩
    rcases houtcome : (c.step s input (.ofBytes buffer)).outcome with error | status
    · rw [(hcomplies.fails houtcome).1]
      exact hbounds
    · rcases hcomplies.moves houtcome with ⟨n, data, hread, _, hinput, _⟩
      rw [hinput]
      exact advance_inBounds hbounds (Cursor.length_rest input ▸ hread)
  written := by
    rintro s input buffer stepped status hreached hbounds hbuffer rfl houtcome
    rcases hc.next hreached hbounds hbuffer with ⟨u, ended, hcomplies⟩
    rcases hcomplies.moves houtcome with ⟨n, data, _, hfits, _, houtput⟩
    rw [houtput]
    exact Cursor.fill_inBounds (Cursor.ofBytes_inBounds _) hfits
  count := by
    rintro s input buffer stepped status hreached hbounds hbuffer rfl houtcome
    rcases hreached.lived with ⟨u, v, ended, hlived⟩
    have hin := Cursor.ofBytes_inBounds buffer
    have hroom := Cursor.room_ofBytes_pos hbuffer
    rcases (hc.steps hlived hbounds hin hroom).moves houtcome with ⟨n, data, _, hfits, _, houtput⟩
    have htotal := hc.total (hlived.step hbounds hin hroom rfl houtcome)
    rw [houtput, Cursor.added_fill hin hfits, List.length_append, ← hc.total hlived] at htotal
    rw [htotal, houtput, Cursor.fill_eq hfits]
    exact congrArg _ (Nat.zero_add _).symm

/-- Dependable codecs are thorough. -/
theorem Codec.Dependable.thorough (hc : c.Dependable Accounts) : c.Thorough where
  keeps := by
    rintro s input buffer stepped status hreached hbounds hbuffer rfl houtcome
    rcases hc.next hreached hbounds hbuffer with ⟨u, ended, hcomplies⟩
    rcases hcomplies.moves houtcome with ⟨n, data, _, _, hinput, _⟩
    rw [hinput]
    rfl
  exhausts := by
    rintro s input buffer stepped hreached hbounds hbuffer rfl houtcome hnothing
    rcases hc.next hreached hbounds hbuffer with ⟨u, ended, hcomplies⟩
    exact (hcomplies.waits houtcome hnothing).1

end Assumed

/-! ## Deflate sessions -/

namespace Deflate

open BitMachine Engine

variable {wrapped : Bool} {s s' : Session} {engine : Engine} {u v whole : List UInt8}
  {held : List Bool} {totalIn totalOut room n : Nat} {sent : List UInt8} {yield : Yield ReturnCode}

-- The stream is over only after some bit.
theorem machine_fed : machine.Fed fun e => e.phase.isDone = true where
  settle hsettle hdone := by
    cases writes_of_settle hsettle <;> exact hdone
  prepare hprepare hdone := (looks_of_prepare hprepare).same.1 ▸ hdone
  pause hdone := hdone

namespace Session

open Decompressor

/-- How a session stands that has read the bytes `u` and written the bytes `v`. What it has decoded
    beyond that is pending. -/
structure Stands (wrapped : Bool) (s : Session) (engine : Engine) (u v : List UInt8) : Prop where
  alive : s.engine = .ok engine
  rested : engine.Rested
  accounts : machine.Accounts (.start wrapped) u (v ++ s.pending) engine s.held
  totalIn : s.totalIn = u.length
  totalOut : s.totalOut = v.length

/-- What a call over the bytes `whole` comes to, with so much room, in a session that had read `u`
    and written `v`. It has read `n` of the bytes. -/
structure Delivers (wrapped : Bool) (u v whole : List UInt8) (room : Nat) (s : Session)
    (yield : Yield ReturnCode) (n : Nat) (engine : Engine) : Prop where
  stands : s.Stands wrapped engine (u ++ whole.take n) (v ++ yield.data)
  read : n ≤ whole.length
  fits : yield.data.length ≤ room
  ends : yield.code = .streamEnd → engine.isDone = true
  -- Nothing is left if it goes on without having written anything
  starved : yield.data = [] → yield.code ≠ .streamEnd →
    n = whole.length ∧ s.pending = [] ∧ engine.Starved s.held

theorem start_stands (wrapped : Bool) : Stands wrapped (.start wrapped) (.start wrapped) [] [] :=
  ⟨rfl, Engine.start_rested wrapped, ⟨[], .nil, rfl⟩, rfl, rfl⟩

/-- A pass that writes nothing has read everything, unless the stream is over. -/
theorem starved_of_pass {unread : List UInt8} {halt : Halt Engine} (h : engine.Rested)
    (hrun : machine.run engine engine.window.place held unread = .ok halt)
    (hnothing : halt.written = []) (hrunning : ¬ halt.engine.isDone = true) :
    halt.consumed = unread.length ∧ halt.engine.Starved halt.held := by
  rcases Engine.rested_of_run h hrun with ⟨_, hexhausts, hdone⟩
  cases hstanding : halt.standing with
  | hungry => exact hexhausts.hungry hstanding
  | blocked =>
      -- There is a place in the window at all times.
      have hplace := engine.window.place_pos
      have hroom := hexhausts.room
      rw [hnothing, hexhausts.blocked hstanding] at hroom
      exact absurd hroom (Nat.ne_of_lt hplace)
  | done => exact absurd (hdone hstanding) hrunning

/-- How a session stands after a pass. -/
theorem Stands.pass {halt : Halt Engine}
    (h : Stands wrapped ⟨.ok engine, held, [], totalIn, totalOut⟩ engine (u ++ whole.take n) v)
    (hrun : machine.run engine engine.window.place held (whole.drop n) = .ok halt)
    (room : Nat) :
    halt.consumed ≤ (whole.drop n).length ∧
      Stands wrapped ⟨.ok halt.engine, halt.held, halt.written.reverse.drop room,
        totalIn + halt.consumed, totalOut + (halt.written.reverse.take room).length⟩ halt.engine
        (u ++ whole.take (n + halt.consumed)) (v ++ halt.written.reverse.take room) := by
  have hrested := (Engine.rested_of_run h.rested hrun).1
  rcases h.accounts.run hrun with ⟨hread, haccounts⟩
  have htake : u ++ whole.take (n + halt.consumed) =
      u ++ whole.take n ++ (whole.drop n).take halt.consumed := by
    rw [List.append_assoc, ← List.take_add]
  refine ⟨hread, rfl, hrested, ?_, ?_, ?_⟩
  · rw [List.append_nil, ← htake] at haccounts
    rw [List.append_assoc, List.take_append_drop]
    exact haccounts
  · rw [htake, List.length_append, List.length_take_of_le hread, ← h.totalIn]
  · rw [List.length_append, ← h.totalOut]

/-- What a call comes to whose last pass is this one. -/
theorem delivers_of_pass {halt : Halt Engine}
    (h : Stands wrapped ⟨.ok engine, held, [], totalIn, totalOut⟩ engine (u ++ whole.take n)
      (v ++ sent.reverse))
    (hread : n ≤ whole.length) (hroom : 0 < room)
    (hrun : machine.run engine engine.window.place held (whole.drop n) = .ok halt)
    (hclose : close halt (halt.written.reverse.drop room) (totalIn + halt.consumed)
      (totalOut + (halt.written.reverse.take room).length) (whole.drop n)
      ((halt.written.reverse.take room).reverse ++ sent) = (s', .ok yield)) :
    Delivers wrapped u v whole (room + sent.length) s' yield (n + halt.consumed) halt.engine := by
  rcases h.pass hrun room with ⟨hmore, hstands⟩
  rw [List.length_drop] at hmore
  have hsent : ((halt.written.reverse.take room).reverse ++ sent).reverse =
      sent.reverse ++ halt.written.reverse.take room := by
    rw [List.reverse_append, List.reverse_reverse]
  cases hclose
  refine ⟨?_, by omega, ?_, fun hover => (codeOf_eq_streamEnd_iff.mp hover).1,
    fun hnothing hrunning => ?_⟩
  · rw [hsent, ← List.append_assoc]
    exact hstands
  · rw [hsent, List.length_append, List.length_take, List.length_reverse]
    omega
  · rw [hsent, List.append_eq_nil_iff, List.take_eq_nil_iff] at hnothing
    have hwritten : halt.written = [] :=
      List.reverse_eq_nil_iff.mp (hnothing.2.resolve_left (Nat.ne_of_gt hroom))
    have hpending : halt.written.reverse.drop room = [] := by
      rw [hwritten, List.reverse_nil, List.drop_nil]
    rcases starved_of_pass h.rested hrun hwritten
      (fun hdone => hrunning (codeOf_eq_streamEnd_iff.mpr ⟨hdone, hpending⟩)) with
      ⟨hconsumed, hstarved⟩
    rw [List.length_drop] at hconsumed
    exact ⟨by omega, hpending, hstarved⟩

/-- The passes of a call. -/
theorem delivers_of_passes {fuel : Nat}
    (h : Stands wrapped ⟨.ok engine, held, [], totalIn, totalOut⟩ engine (u ++ whole.take n)
      (v ++ sent.reverse))
    (hread : n ≤ whole.length) (hroom : 0 < room)
    (hpasses : passes fuel engine held (whole.drop n) totalIn totalOut room sent =
      (s', .ok yield)) :
    ∃ n' engine', Delivers wrapped u v whole (room + sent.length) s' yield n' engine' := by
  induction fuel generalizing engine held totalIn totalOut room n sent with
  | zero =>
      rw [passes] at hpasses
      split at hpasses
      · cases hpasses
      next halt hrun =>
        dsimp only at hpasses
        rw [ite_self] at hpasses
        exact ⟨_, halt.engine, delivers_of_pass h hread hroom hrun hpasses⟩
  | succ fuel ih =>
      rw [passes] at hpasses
      split at hpasses
      · cases hpasses
      next halt hrun =>
        dsimp only at hpasses
        split at hpasses
        · exact ⟨_, halt.engine, delivers_of_pass h hread hroom hrun hpasses⟩
        next hgoesOn =>
          -- All that the pass decoded is delivered, and there is room for more.
          simp only [Bool.or_eq_true, Bool.not_eq_true', beq_iff_eq, List.isEmpty_eq_false_iff,
            not_or, Decidable.not_not] at hgoesOn
          rcases hgoesOn with ⟨⟨_, hleft⟩, hpending⟩
          rcases h.pass hrun room with ⟨hmore, hstands⟩
          rw [List.length_drop] at hmore
          rw [List.drop_drop] at hpasses
          generalize hdata : halt.written.reverse.take room = data at hstands hpasses hleft
          have hfits : data.length ≤ room := hdata ▸ List.length_take_le _ _
          have hsame : room - data.length + (data.reverse ++ sent).length = room + sent.length := by
            rw [List.length_append, List.length_reverse]
            omega
          rw [hpending, List.append_assoc] at hstands
          rw [← hsame]
          refine ih ?_ (by omega) (Nat.pos_of_ne_zero hleft) hpasses
          rw [List.reverse_append, List.reverse_reverse]
          exact hstands

theorem delivers_of_decompress (h : s.Stands wrapped engine u v) (hroom : 0 < room)
    (hcall : primitive.decompress s whole room = (s', .ok yield)) :
    ∃ n engine', Delivers wrapped u v whole room s' yield n engine' := by
  rcases s with ⟨_, held, pending, totalIn, totalOut⟩
  cases h.alive
  cases pending with
  | nil =>
      have hfirst : Stands wrapped ⟨.ok engine, held, [], totalIn, totalOut⟩ engine
          (u ++ whole.take 0) (v ++ [].reverse) := by
        rw [List.take_zero, List.append_nil, List.reverse_nil, List.append_nil]
        exact h
      exact delivers_of_passes hfirst (Nat.zero_le _) hroom hcall
  | cons b pending =>
      cases hcall
      refine ⟨0, engine, ⟨rfl, h.rested, ?_, ?_, ?_⟩, Nat.zero_le _, List.length_take_le _ _,
        fun hover => (codeOf_eq_streamEnd_iff.mp hover).1, fun hnothing _ => ?_⟩
      · rw [List.take_zero, List.append_nil, List.append_assoc, List.take_append_drop]
        exact h.accounts
      · rw [List.take_zero, List.append_nil]
        exact h.totalIn
      · rw [List.length_append, ← h.totalOut]
      · rw [List.take_eq_nil_iff] at hnothing
        exact absurd (hnothing.resolve_left (Nat.ne_of_gt hroom)) (List.cons_ne_nil _ _)

-- The counts of such a call are right.
theorem Delivers.counted {engine' : Engine} (h : s.Stands wrapped engine u v)
    (hcall : primitive.decompress s whole room = (s', .ok yield))
    (hdelivers : Delivers wrapped u v whole room s' yield n engine') :
    primitive.Counted s whole room s' yield n where
  call := hcall
  fits := hdelivers.fits
  totalIn := by
    change s'.totalIn = s.totalIn + n
    rw [hdelivers.stands.totalIn, h.totalIn, List.length_append,
      List.length_take_of_le hdelivers.read]
  totalOut := by
    change s'.totalOut = s.totalOut + yield.data.length
    rw [hdelivers.stands.totalOut, h.totalOut, List.length_append]

/-- A step that succeeds moves both cursors by what its call comes to. -/
theorem delivers_of_step {input output : Cursor} {status : Status}
    (h : s.Stands wrapped engine u v) (hroom : 0 < output.room)
    (houtcome : (s.step input output).outcome = .ok status) :
    ∃ s' yield n engine', Delivers wrapped u v input.rest output.room s' yield n engine' ∧
      s.step input output =
        ⟨s', input.advance n, output.fill yield.data, .ok yield.code.status⟩ := by
  rcases Adapter.call_of_outcome houtcome with ⟨yield, hcall, _⟩
  rcases delivers_of_decompress h hroom hcall with ⟨n, engine', hdelivers⟩
  exact ⟨_, yield, n, engine', hdelivers,
    Adapter.step_of_counted (a := adapter primitive) (hdelivers.counted h hcall)⟩

/-- Without further input, a session that nothing is left for goes on and writes nothing. -/
theorem step_of_starved {input : Cursor} (hengine : s.engine = .ok engine)
    (hpending : s.pending = []) (hstarved : engine.Starved s.held) (hrest : input.rest = [])
    (output : Cursor) :
    (s.step input output).output = output ∧ (s.step input output).outcome = .ok .progress := by
  rcases s with ⟨_, held, _, totalIn, totalOut⟩
  cases hengine
  cases hpending
  rcases Engine.run_of_starved hstarved engine.window.place with ⟨halt, hrun, hnothing, hrunning⟩
  have hcall : primitive.decompress ⟨.ok engine, held, [], totalIn, totalOut⟩ input.rest
      output.room = close halt [] (totalIn + halt.consumed) totalOut [] [] := by
    change passes output.room engine held input.rest totalIn totalOut output.room [] = _
    rw [hrest, passes.eq_def, hrun]
    simp [hnothing]
  have hstep : Session.step ⟨.ok engine, held, [], totalIn, totalOut⟩ input output = _ :=
    Adapter.step_of_counted (a := adapter primitive) (n := halt.consumed)
      ⟨hcall, Nat.zero_le _, rfl, rfl⟩
  rw [hstep]
  refine ⟨Cursor.fill_nil output, congrArg Except.ok (status_eq_progress_iff.mpr fun hover => ?_)⟩
  cases hrunning.symm.trans (codeOf_eq_streamEnd_iff.mp hover).1

/-- How a session stands that has read `u` and written `v`, and whose stream is over if `ended` is
    true. -/
def Lasts (wrapped : Bool) (s : Session) (u v : List UInt8) (ended : Bool) : Prop :=
  (∃ engine, s.Stands wrapped engine u v) ∧ (ended = true → s.IsOver)

theorem Lasts.step {ended : Bool} {input output : Cursor} {status : Status}
    (h : s.Lasts wrapped u v ended) (hin : output.InBounds) (hroom : 0 < output.room)
    (houtcome : (s.step input output).outcome = .ok status) :
    (s.step input output).session.Lasts wrapped (u ++ input.between (s.step input output).input)
      (v ++ output.added (s.step input output).output) (ended || decide (status = .streamEnd)) := by
  rcases h with ⟨⟨engine, hstands⟩, hended⟩
  rcases delivers_of_step hstands hroom houtcome with
    ⟨s', yield, n, engine', hdelivers, hstep⟩
  constructor
  · rw [hstep, between_advance, Cursor.added_fill hin hdelivers.fits]
    exact ⟨engine', hdelivers.stands⟩
  · intro hover
    cases ended with
    | true =>
        rw [step_of_isOver (hended rfl)]
        exact hended rfl
    | false =>
        have hstatus : status = .streamEnd := of_decide_eq_true hover
        subst hstatus
        exact isOver_of_step houtcome

/-- A session that goes on without having written anything has read everything, and then goes on
    likewise until there is further input. -/
theorem Lasts.quiet {ended : Bool} {input output : Cursor} (h : s.Lasts wrapped u v ended)
    (hin : output.InBounds) (hroom : 0 < output.room)
    (houtcome : (s.step input output).outcome = .ok .progress)
    (hnothing : output.added (s.step input output).output = []) :
    (s.step input output).input.rest = [] ∧ ∀ input' output' : Cursor, input'.rest = [] →
      ((s.step input output).session.step input' output').output = output' ∧
      ((s.step input output).session.step input' output').outcome = .ok .progress := by
  rcases h.1 with ⟨engine, hstands⟩
  rcases delivers_of_step hstands hroom houtcome with
    ⟨s', yield, n, engine', hdelivers, hstep⟩
  rw [hstep] at houtcome hnothing ⊢
  rw [Cursor.added_fill hin hdelivers.fits] at hnothing
  rcases hdelivers.starved hnothing (status_eq_progress_iff.mp (Except.ok.inj houtcome)) with
    ⟨hconsumed, hpending, hstarved⟩
  constructor
  · rw [rest_advance, hconsumed, List.drop_length]
  · intro input' output' hrest
    exact step_of_starved hdelivers.stands.alive hpending hstarved hrest output'

theorem Lasts.complies {ended : Bool} {input output : Cursor} (h : s.Lasts wrapped u v ended)
    (hin : output.InBounds) (hroom : 0 < output.room) :
    (codec wrapped).Complies u ended input output (s.step input output) := by
  rcases h.1 with ⟨engine, hstands⟩
  constructor
  · intro status houtcome
    rcases delivers_of_step hstands hroom houtcome with
      ⟨s', yield, n, engine', hdelivers, hstep⟩
    rw [hstep]
    exact ⟨n, yield.data, Cursor.length_rest input ▸ hdelivers.read, hdelivers.fits, rfl, rfl⟩
  · intro error houtcome
    exact unmoved_of_failed houtcome
  · intro houtcome hnothing
    rcases h.quiet hin hroom houtcome hnothing with ⟨hrest, hquiet⟩
    refine ⟨hrest, fun input' output' hrest' => ?_⟩
    rcases hquiet input' output' hrest' with ⟨hsame, hprogress⟩
    refine ⟨hsame, fun hend => ?_⟩
    cases hprogress.symm.trans hend
  · intro houtcome
    rcases delivers_of_step hstands hroom houtcome with
    ⟨s', yield, n, engine', hdelivers, hstep⟩
    rw [hstep] at houtcome ⊢
    rw [between_advance]
    have hdone := hdelivers.ends (status_eq_streamEnd_iff.mp (Except.ok.inj houtcome))
    rw [Engine.isDone, Bool.and_eq_true] at hdone
    refine hdelivers.stands.accounts.read_ne_nil machine_fed ?_ hdone.1
    cases wrapped <;> exact Bool.false_ne_true
  · intro hover hprogress
    rw [step_of_isOver (h.2 hover)] at hprogress
    cases hprogress

end Session

theorem lasts_of_lived {ended : Bool} (h : Lived (codec wrapped) s u v ended) :
    s.Lasts wrapped u v ended := by
  refine h.keeps (I := Session.Lasts wrapped) ?_ Session.Lasts.step
  intro memory memory' s hstart
  cases hstart
  exact ⟨⟨_, Session.start_stands wrapped⟩, nofun⟩

/-- Whether with or without header and checksum, however a session is run, what has been read are
    the bits that the machine has taken in and those that are held back; what has been written is
    what the machine has written, without what is pending; and every step is as it should be. -/
theorem dependable (wrapped : Bool) :
    (codec wrapped).Dependable fun s u v => ∃ engine, s.engine = .ok engine ∧
      machine.Accounts (.start wrapped) u (v ++ s.pending) engine s.held ∧
        s.totalIn = u.length where
  accounts h := by
    rcases lasts_of_lived h with ⟨⟨engine, hstands⟩, _⟩
    exact ⟨engine, hstands.alive, hstands.accounts, hstands.totalIn⟩
  total h := by
    rcases lasts_of_lived h with ⟨⟨engine, hstands⟩, _⟩
    exact hstands.totalOut
  steps h _ hwritten hroom := (lasts_of_lived h).complies hwritten hroom

/-- A session that has nothing left goes on waiting for further input. -/
theorem candid (wrapped : Bool) : (codec wrapped).Candid where
  toThorough := (dependable wrapped).thorough
  waits := by
    rintro s input buffer stepped hreached hbounds hbuffer rfl houtcome hnothing room hroom
    rcases hreached.lived with ⟨u, v, ended, hlived⟩
    have hin := Cursor.ofBytes_inBounds buffer
    have hpos := Cursor.room_ofBytes_pos hbuffer
    rcases (lasts_of_lived hlived).quiet hin hpos houtcome hnothing with ⟨_, hquiet⟩
    rcases hquiet (.ofBytes []) (.ofBytes room) rfl with ⟨hsame, hprogress⟩
    have hcomplies := (dependable wrapped).steps (hlived.step hbounds hin hpos rfl houtcome)
      (Cursor.ofBytes_inBounds []) (Cursor.ofBytes_inBounds room) (Cursor.room_ofBytes_pos hroom)
    rcases hcomplies.moves hprogress with ⟨n, data, hread, _, hinput, _⟩
    refine ⟨hprogress, ?_, (congrArg Cursor.InBounds hsame).mpr (Cursor.ofBytes_inBounds room),
      congrArg Cursor.front hsame⟩
    rw [hinput]
    exact advance_inBounds (Cursor.ofBytes_inBounds []) hread
  stays h hbounds hbuffer :=
    ((dependable wrapped).steps h.lived hbounds (Cursor.ofBytes_inBounds _)
      (Cursor.room_ofBytes_pos hbuffer)).stays rfl

end Deflate

/-! ## Bzip2 sessions -/

namespace Bzip2

open BitMachine

variable {small : Bool} {s : Session} {engine : Engine} {u v : List UInt8} {ended : Bool}
  {input output : Cursor} {status : Status}

-- The stream is over only after some bit.
theorem machine_fed : machine.Fed fun e => e.phase.isDone = true where
  settle := by
    intro e e' room new standing hsettle hdone
    rcases e with ⟨bytewise, capacity, combined, phase, field⟩
    cases phase with
    | writing checksum unroller =>
        simp only [machine, Engine.settle] at hsettle
        split at hsettle
        · cases hsettle
          cases hdone
        · cases hsettle
        · split at hsettle <;> cases hsettle
          cases hdone
    | _ =>
        cases hsettle
        exact hdone
  prepare := by
    intro e e' s appetite hprepare hdone
    change e.prepare s = _ at hprepare
    rw [Engine.prepare] at hprepare
    split at hprepare <;> cases hprepare <;> exact hdone
  pause := by
    intro e hdone
    change e.pause.phase.isDone = true at hdone
    rw [Engine.pause] at hdone
    split at hdone
    · cases hdone
    · exact hdone

namespace Session

/-- How a session stands that has read `u` and written `v`, and whose stream is over if `ended` is
    true. -/
structure Stands (small : Bool) (s : Session) (engine : Engine) (u v : List UInt8) (ended : Bool) :
    Prop where
  alive : s.engine = .ok engine
  accounts : machine.Accounts (.start small) u v engine s.held
  totalIn : s.totalIn = u.length
  totalOut : s.totalOut = v.length
  finished : ended = true → engine.phase.isDone = true

/-- Such a session is run only before its stream is over. -/
theorem Stands.running {halt : Halt Engine} {stepped : Stepped Session} {engine' : Engine}
    (h : s.Stands small engine u v ended) (hruns : s.Runs input output engine' halt stepped) :
    engine' = engine ∧ ended = false := by
  cases h.alive.symm.trans hruns.alive
  refine ⟨rfl, ?_⟩
  rw [← Bool.not_eq_true]
  exact fun hended => Bool.noConfusion (hruns.running.symm.trans (h.finished hended))

theorem Stands.step (h : s.Stands small engine u v ended) (hin : output.InBounds)
    (houtcome : (s.step input output).outcome = .ok status) :
    ∃ engine', (s.step input output).session.Stands small engine'
      (u ++ input.between (s.step input output).input)
      (v ++ output.added (s.step input output).output) (ended || decide (status = .streamEnd)) := by
  rcases runs_of_step rfl houtcome with ⟨engine', halt, hruns⟩
  rcases h.running hruns with ⟨rfl, rfl⟩
  rcases h.accounts.run hruns.run with ⟨hread, haccounts⟩
  refine ⟨halt.engine, ?_, ?_, ?_, ?_, fun hover => ?_⟩
  · rw [hruns.after]
  · rw [hruns.after, between_advance, Cursor.added_fill hin hruns.fits]
    exact haccounts
  · rw [hruns.after, between_advance, List.length_append, List.length_take_of_le hread, ← h.totalIn]
  · rw [hruns.after, Cursor.added_fill hin hruns.fits, List.length_append, ← h.totalOut]
  · have hstatus : status = .streamEnd := of_decide_eq_true hover
    rw [hstatus] at houtcome
    rcases isDone_of_step houtcome with ⟨engine, hengine, hdone⟩
    rw [hruns.after] at hengine
    cases hengine
    exact hdone

theorem Stands.complies (h : s.Stands small engine u v ended) (hin : output.InBounds)
    (hroom : 0 < output.room) :
    (codec small).Complies u ended input output (s.step input output) := by
  constructor
  · intro status houtcome
    rcases runs_of_step rfl houtcome with ⟨engine', halt, hruns⟩
    rcases h.running hruns with ⟨rfl, rfl⟩
    have hread := (h.accounts.run hruns.run).1
    rw [Cursor.length_rest] at hread
    rw [hruns.after]
    exact ⟨halt.consumed, halt.written.reverse, hread, hruns.fits, rfl, rfl⟩
  · intro error houtcome
    exact unmoved_of_step houtcome
  · intro houtcome hnothing
    rcases runs_of_step rfl houtcome with ⟨engine', halt, hruns⟩
    rw [hruns.after, Cursor.added_fill hin hruns.fits, List.reverse_eq_nil_iff] at hnothing
    rcases mute_of_runs hruns houtcome (by rw [hnothing]; exact hroom) with ⟨hrest, hmute⟩
    refine ⟨hrest, fun input' output' hrest' => ?_⟩
    rw [hruns.after]
    exact step_of_mute rfl hmute hrest' output'
  · intro houtcome
    rcases h.step hin houtcome with ⟨engine', hstands⟩
    refine hstands.accounts.read_ne_nil machine_fed Bool.false_ne_true (hstands.finished ?_)
    rw [decide_eq_true rfl, Bool.or_true]
  · intro hover houtcome
    rcases runs_of_step rfl houtcome with ⟨engine', halt, hruns⟩
    cases (h.running hruns).2.symm.trans hover

end Session

theorem stands_of_lived (h : Lived (codec small) s u v ended) :
    ∃ engine, s.Stands small engine u v ended := by
  refine h.keeps (I := fun s u v ended => ∃ engine, s.Stands small engine u v ended) ?_ ?_
  · intro memory memory' s hstart
    cases hstart
    exact ⟨_, rfl, ⟨[], .nil, rfl⟩, rfl, rfl, nofun⟩
  · rintro s u v ended input output status ⟨engine, hstands⟩ hin _ houtcome
    exact hstands.step hin houtcome

/-- However a session is run, what has been read are the bits that the machine has taken in and
    those that are held back, what has been written is what the machine has written, and every step
    is as it should be. -/
theorem dependable (small : Bool) :
    (codec small).Dependable fun s u v => ∃ engine, s.engine = .ok engine ∧
      machine.Accounts (.start small) u v engine s.held ∧ s.totalIn = u.length where
  accounts h := by
    rcases stands_of_lived h with ⟨engine, hstands⟩
    exact ⟨engine, hstands.alive, hstands.accounts, hstands.totalIn⟩
  total h := by
    rcases stands_of_lived h with ⟨engine, hstands⟩
    exact hstands.totalOut
  steps h _ hwritten hroom := by
    rcases stands_of_lived h with ⟨engine, hstands⟩
    exact hstands.complies hwritten hroom

/-- The beginning of a stream with two codes. The codeword lengths of the first go up and down for
    so long that no place in the codes has been kept, and of the second there are three bits. -/
def brokenOff : List UInt8 :=
  [0x42, 0x5a, 0x68, 0x31, 0x31, 0x41, 0x59, 0x26, 0x53, 0x59, 0, 0, 0, 0, 0, 0, 0, 0x40, 0, 0x40,
    0, 0x20, 0, 0x30, 0x6e] ++ List.replicate 44 0xee ++ [0xc7]

/-- A session that has nothing left need not go on waiting: what is held back of a code may be taken
    for something else, and the next step fail. -/
theorem not_candid (small : Bool) : ¬ (codec small).Candid := by
  intro hcandid
  generalize hstep : (codec small).step (.start small) (.ofBytes brokenOff) (.ofBytes [0]) = stepped
  have hruns : stepped.outcome.toOption = some .progress ∧ stepped.output.front = [] ∧
      ((codec small).step stepped.session (.ofBytes []) (.ofBytes [0])).outcome.toOption =
        none := by
    subst hstep
    cases small <;> decide +kernel
  rcases hruns with ⟨hprogress, hnothing, hfails⟩
  have houtcome : stepped.outcome = .ok .progress := by
    rcases h : stepped.outcome with error | status <;> rw [h] at hprogress
    · cases hprogress
    · exact congrArg Except.ok (Option.some.inj hprogress)
  have hreached : (codec small).Reached (.start small) := .fresh (rfl : (codec small).start () = _)
  have hwaits := hcandid.waits hreached (Cursor.ofBytes_inBounds _) (List.cons_ne_nil _ _) hstep
    houtcome hnothing (List.cons_ne_nil 0 [])
  rw [hwaits.outcome] at hfails
  cases hfails

end Bzip2

/-! ## The three codecs -/

/-- All sessions keep the contract, of plain streams and of those with header and checksum, and of
    bzip2 streams, whatever they are given and however they are run, until one fails. -/
theorem sessions_dependable :
    (∀ wrapped, (Deflate.codec wrapped).Dependable fun s u v => ∃ engine, s.engine = .ok engine ∧
      Deflate.machine.Accounts (.start wrapped) u (v ++ s.pending) engine s.held ∧
        s.totalIn = u.length) ∧
    ∀ small, (Bzip2.codec small).Dependable fun s u v => ∃ engine, s.engine = .ok engine ∧
      Bzip2.machine.Accounts (.start small) u v engine s.held ∧ s.totalIn = u.length :=
  ⟨Deflate.dependable, Bzip2.dependable⟩

end Decompression
