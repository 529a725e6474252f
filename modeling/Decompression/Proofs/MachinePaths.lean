import Decompression.Proofs.MachineRuns
import Decompression.Proofs.Settling

/-!
# Accounts of Bit Machines

A machine reads bytes and takes in bits, and it may have read more than it has taken in. What it
has read is accounted for if the bits of these bytes are those that it has taken in, in that order,
and after them those that are held back. A run keeps such an account whatever the machine is, how
much room there was and how far it read ahead, and also if it gives bytes back in the end.

A run is told here as a course: a way from one moment to another, on which the machine writes what
it owes and looks at what there is, is fed a bit, or has a byte read. Whatever is to be shown of a
run is shown of these three, and of the moment at which the machine stops. Where it makes no
difference what there was to go on with, only the machine's own path is left of a course, and
paths of several runs follow on from each other.

## Main definitions

* `BitMachine.Path`: A way from one state to another, and what is taken in and written on it.
* `BitMachine.Fed`: States that bits alone lead to.
* `BitMachine.Accounts`: What has been read has been taken in or is held back.
* `Moment`: A machine within a run.
* `BitMachine.Course`: A part of a run.
* `BitMachine.Closes`: How a machine stops.
* `BitMachine.Halts`: A whole run.
* `BitMachine.Keeps`: A condition that every part of a run keeps.
* `BitMachine.Exhausts`: A machine that has stopped because it had to.

## Theorems

* `halts_of_run`: Every run is a course and a stop.
* `Course.balance`: Nothing is lost on a course, and nothing is taken in twice.
* `Accounts.read_ne_nil`: Where bits alone lead, something has been read.
* `Accounts.run`: A run keeps the account.
* `Keeps.course`: Conditions are kept by whole courses.
* `run_done`: A machine that reports its end is in a state in which it may.
* `Halts.exhausts`: When a run exhausts its room or its input.
-/

namespace Decompression

/-- A machine within a run. -/
structure Moment (E : Type) where
  /-- The machine. -/
  engine : E
  /-- How many bytes there is room for. -/
  room : Nat
  /-- The bits that have been read and not been fed. -/
  held : List Bool
  /-- The bytes that have not been read. -/
  unread : List UInt8

/-- What there is to go on with. -/
def Moment.supply {E : Type} (a : Moment E) : Supply :=
  ⟨a.room, a.held, a.unread.length⟩

namespace BitMachine

variable {ε E : Type} {m : BitMachine ε E} {first e e' : E} {room consumed unread ahead : Nat}
  {written new out u v : List UInt8} {held bits taken : List Bool} {bytes : List UInt8}
  {halt : Halt E} {a z : Moment E}

/-! ## Paths -/

/-- A way from the state `e` to another one, the bits that are taken in on it, and the bytes that
    are written. -/
inductive Path (m : BitMachine ε E) (e : E) : List Bool → List UInt8 → E → Prop
  | nil : Path m e [] [] e
  | settled {e₁ e₂ : E} {taken : List Bool} {written new : List UInt8} {room : Nat}
      {standing : Standing} (before : Path m e taken written e₁)
      (settle : m.settle e₁ room = ⟨e₂, new, .ok standing⟩) :
      Path m e taken (written ++ new.reverse) e₂
  | prepared {e₁ e₂ : E} {taken : List Bool} {written : List UInt8} {s : Supply}
      {appetite : Appetite} (before : Path m e taken written e₁)
      (prepare : m.prepare e₁ s = (e₂, appetite)) : Path m e taken written e₂
  | fed {e₁ e₂ : E} {taken : List Bool} {written : List UInt8} {unread : Nat} {b : Bool}
      (before : Path m e taken written e₁) (feed : m.feed e₁ unread b = .ok e₂) :
      Path m e (taken ++ [b]) written e₂
  | paused {e₁ : E} {taken : List Bool} {written : List UInt8}
      (before : Path m e taken written e₁) : Path m e taken written (m.pause e₁)

/-- Bits alone lead to such states: they are not written or looked into, nor come to for want of
    input. -/
structure Fed (m : BitMachine ε E) (P : E → Prop) : Prop where
  settle : ∀ {e e' : E} {room : Nat} {new : List UInt8} {standing : Standing},
    m.settle e room = ⟨e', new, .ok standing⟩ → P e' → P e
  prepare : ∀ {e e' : E} {s : Supply} {appetite : Appetite},
    m.prepare e s = (e', appetite) → P e' → P e
  pause : ∀ {e : E}, P (m.pause e) → P e

theorem Path.taken_ne_nil {P : E → Prop} (hm : m.Fed P) (h : m.Path e taken written e')
    (hbefore : ¬ P e) (hafter : P e') : taken ≠ [] := by
  induction h with
  | nil => exact absurd hafter hbefore
  | settled _ hsettle ih => exact ih (hm.settle hsettle hafter)
  | prepared _ hprepare ih => exact ih (hm.prepare hprepare hafter)
  | fed _ _ _ => exact List.append_ne_nil_of_right_ne_nil _ (List.cons_ne_nil _ _)
  | paused _ ih => exact ih (hm.pause hafter)

/-- The machine has read the bytes `u` and written the bytes `v` since it was in its first state.
    The bits of `u` have been taken in, but for those that are held back. -/
def Accounts (m : BitMachine ε E) (first : E) (u v : List UInt8) (e : E) (held : List Bool) :
    Prop :=
  ∃ taken, m.Path first taken v e ∧ m.bitsOf u = taken ++ held

/-- Where bits alone lead, something has been read, unless the machine was there from the
    beginning. -/
theorem Accounts.read_ne_nil {P : E → Prop} (hm : m.Fed P) (h : m.Accounts first u v e held)
    (hbefore : ¬ P first) (hafter : P e) : u ≠ [] := by
  rcases h with ⟨taken, hpath, hbits⟩
  rintro rfl
  exact hpath.taken_ne_nil hm hbefore hafter (List.append_eq_nil_iff.mp hbits.symm).1

/-! ## Courses -/

/-- A part of a run: the bits that are taken in, and the bytes that are written. -/
inductive Course (m : BitMachine ε E) : Moment E → List Bool → List UInt8 → Moment E → Prop
  | nil (a : Moment E) : Course m a [] [] a
  -- The machine writes all that it owes, and looks at what there is
  | looks {e e' e'' : E} {room : Nat} {held taken : List Bool} {unread new out : List UInt8}
      {appetite : Appetite} {z : Moment E} (settle : m.settle e room = ⟨e', new, .ok .hungry⟩)
      (prepare : m.prepare e' ⟨room - new.length, held, unread.length⟩ = (e'', appetite))
      (rest : Course m ⟨e'', room - new.length, held, unread⟩ taken out z) :
      Course m ⟨e, room, held, unread⟩ taken (new.reverse ++ out) z
  -- It takes in a bit
  | feeds {e e' : E} {room : Nat} {b : Bool} {held taken : List Bool} {unread out : List UInt8}
      {z : Moment E} (feed : m.feed e unread.length b = .ok e')
      (rest : Course m ⟨e', room, held, unread⟩ taken out z) :
      Course m ⟨e, room, b :: held, unread⟩ (b :: taken) out z
  -- A byte is read
  | reads {e : E} {room : Nat} {b : UInt8} {held taken : List Bool} {unread out : List UInt8}
      {z : Moment E} (rest : Course m ⟨e, room, held ++ m.order.bits b, unread⟩ taken out z) :
      Course m ⟨e, room, held, b :: unread⟩ taken out z

/-- How a machine stops, after it has written some more. -/
inductive Closes (m : BitMachine ε E) (a : Moment E) : List UInt8 → E → Standing → Prop
  -- It is over, or it has no room for what it owes
  | settled {e : E} {new : List UInt8} {standing : Standing}
      (settle : m.settle a.engine a.room = ⟨e, new, .ok standing⟩) (waits : standing ≠ .hungry) :
      Closes m a new e standing
  -- It wants room before it takes in anything
  | crowded {e e' : E} {new : List UInt8}
      (settle : m.settle a.engine a.room = ⟨e, new, .ok .hungry⟩)
      (prepare : m.prepare e ⟨a.room - new.length, a.held, a.unread.length⟩ = (e', .room)) :
      Closes m a new e' .blocked
  -- It wants more than there is
  | starved {e e' : E} {new : List UInt8} {appetite : Appetite}
      (settle : m.settle a.engine a.room = ⟨e, new, .ok .hungry⟩)
      (prepare : m.prepare e ⟨a.room - new.length, a.held, a.unread.length⟩ = (e', appetite))
      (more : appetite ≠ .room) (nothing : appetite = .bit → a.held = []) :
      Closes m a new e' .hungry

/-- A run that begins with `before` written and `start` bytes read. The machine goes some way and
    stops in the state `e`. If it wants more then, everything has been read, and it is left without
    input; otherwise `spare` bytes may be given back. -/
structure Halts (m : BitMachine ε E) (a : Moment E) (before : List UInt8) (start : Nat)
    (taken : List Bool) (out : List UInt8) (z : Moment E) (new : List UInt8) (e : E) (spare : Nat)
    (halt : Halt E) : Prop where
  course : m.Course a taken out z
  closes : m.Closes z new e halt.standing
  hungry : halt.standing = .hungry → z.unread = [] ∧ halt.engine = m.pause e
  sated : halt.standing ≠ .hungry → halt.engine = e
  written : halt.written = new ++ (out.reverse ++ before)
  room : halt.room = z.room - new.length
  returns : m.returns halt.standing = false → spare = 0
  whole : 8 * spare ≤ z.held.length
  held : halt.held = z.held.take (z.held.length - 8 * spare)
  consumed : halt.consumed + spare + z.unread.length = start + a.unread.length

-- A machine that is given more goes on.
theorem Closes.onward (h : m.Closes z new e .hungry) :
    m.Course z [] new.reverse ⟨e, z.room - new.length, z.held, z.unread⟩ := by
  cases h with
  | settled _ hwaits => exact absurd rfl hwaits
  | starved hsettle hprepare _ _ =>
      rw [← List.append_nil new.reverse]
      exact .looks hsettle hprepare (.nil _)

theorem Course.trans {b : Moment E} {taken' : List Bool} {out' : List UInt8}
    (h : m.Course a taken out b) (h' : m.Course b taken' out' z) :
    m.Course a (taken ++ taken') (out ++ out') z := by
  induction h with
  | nil => exact h'
  | looks hsettle hprepare _ ih =>
      rw [List.append_assoc]
      exact .looks hsettle hprepare (ih h')
  | feeds hfeed _ ih => exact .feeds hfeed (ih h')
  | reads _ ih => exact .reads (ih h')

-- A run over some bits reads nothing.
theorem course_of_stops (h : m.Stops consumed unread e room written held halt) :
    ∀ bytes, bytes.length = unread → ∃ taken out z new,
      m.Course ⟨e, room, held, bytes⟩ taken out z ∧ m.Closes z new halt.engine halt.standing ∧
      z.unread = bytes ∧ halt.written = new ++ (out.reverse ++ written) ∧
      halt.room = z.room - new.length ∧ halt.held = z.held ∧ halt.consumed = consumed := by
  induction h with
  | settled hsettle hwaits =>
      intro bytes _
      exact ⟨[], [], _, _, .nil _, .settled hsettle hwaits, rfl, rfl, rfl, rfl, rfl⟩
  | crowded hsettle hprepare =>
      rintro bytes rfl
      exact ⟨[], [], _, _, .nil _, .crowded hsettle hprepare, rfl, rfl, rfl, rfl, rfl⟩
  | starved hsettle hprepare hmore hnothing =>
      rintro bytes rfl
      exact ⟨[], [], _, _, .nil _, .starved hsettle hprepare hmore hnothing, rfl, rfl, rfl, rfl,
        rfl⟩
  | @fed _ _ _ _ _ _ new b _ _ hsettle hprepare hfeed _ ih =>
      rintro bytes rfl
      rcases ih bytes rfl with ⟨taken, out, z, last, hcourse, hcloses, hbytes, hwritten, hrest⟩
      refine ⟨b :: taken, new.reverse ++ out, z, last,
        .looks hsettle hprepare (.feeds hfeed hcourse), hcloses, hbytes, ?_, hrest⟩
      rw [hwritten, List.reverse_append, List.reverse_reverse, List.append_assoc]

-- What a machine does with what is held, and what comes of it if it wants more.
theorem halts_ifHungry {next : Halt E → Except (Breakdown ε) (Halt E)}
    (h : ifHungry (m.runBits e room written consumed bytes.length held) next = .ok halt)
    (hnext : ∀ {taken out z new before}, m.Course ⟨e, room, held, bytes⟩ taken out z →
      m.Closes z new before.engine .hungry → z.unread = bytes →
      before.written = new ++ (out.reverse ++ written) → before.room = z.room - new.length →
      before.held = z.held → before.consumed = consumed → before.standing = .hungry →
      next before = .ok halt →
      ∃ taken out z new e',
        m.Halts ⟨e, room, held, bytes⟩ written consumed taken out z new e' 0 halt) :
    ∃ taken out z new e',
      m.Halts ⟨e, room, held, bytes⟩ written consumed taken out z new e' 0 halt := by
  rcases ifHungry_cases h with ⟨before, hbits, hcases⟩
  rcases course_of_stops (stops_of_runBits hbits) bytes rfl with
    ⟨taken, out, z, new, hcourse, hcloses, hbytes, hwritten, hroom, hheld, hconsumed⟩
  rcases hcases with ⟨hhungry, hmore⟩ | ⟨hsated, rfl⟩
  · exact hnext hcourse (hhungry ▸ hcloses) hbytes hwritten hroom hheld hconsumed hhungry hmore
  · exact ⟨taken, out, z, new, before.engine, hcourse, hcloses,
      fun hhungry => absurd hhungry hsated, fun _ => rfl, hwritten, hroom, fun _ => rfl,
      Nat.zero_le _, hheld.trans List.take_length.symm, by rw [hbytes, hconsumed, Nat.add_zero]⟩

theorem halts_of_runBytes
    (h : m.runBytes e room written consumed held ahead bytes.length bytes = .ok halt) :
    ∃ taken out z new e',
      m.Halts ⟨e, room, held, bytes⟩ written consumed taken out z new e' 0 halt := by
  induction bytes generalizing e room written consumed held ahead with
  | nil =>
      rw [runBytes_nil] at h
      refine halts_ifHungry h ?_
      intro taken out z new before hcourse hcloses hbytes hwritten hroom hheld hconsumed hhungry
        hnext
      cases hnext
      exact ⟨taken, out, z, new, before.engine, hcourse, hhungry ▸ hcloses, fun _ => ⟨hbytes, rfl⟩,
        fun hsated => absurd hhungry hsated, hwritten, hroom, fun _ => rfl, Nat.zero_le _,
        hheld.trans List.take_length.symm, by rw [hbytes, hconsumed, Nat.add_zero]⟩
  | cons b bytes ih =>
      cases ahead with
      | succ ahead =>
          rw [runBytes_ahead] at h
          rcases ih h with ⟨taken, out, z, new, e', hhalts⟩
          refine ⟨taken, out, z, new, e',
            { hhalts with course := .reads hhalts.course, consumed := ?_ }⟩
          have hconsumed := hhalts.consumed
          simp only [List.length_cons] at hconsumed ⊢
          omega
      | zero =>
          rw [runBytes_cons] at h
          refine halts_ifHungry h ?_
          intro taken out z new before hcourse hcloses hbytes hwritten hroom hheld hconsumed _ hnext
          -- The machine writes what it owes, and a byte is read for it.
          rcases ih hnext with ⟨taken', out', z', new', e', hhalts⟩
          have honward := hcloses.onward
          rw [← hroom, ← hheld, hbytes] at honward
          refine ⟨_, _, z', new', e',
            { hhalts with
              course := hcourse.trans (honward.trans (.reads hhalts.course))
              written := ?_
              consumed := ?_ }⟩
          · rw [hhalts.written, hwritten]
            simp only [List.reverse_append, List.reverse_reverse, List.append_assoc]
          · have hconsumed' := hhalts.consumed
            simp only [List.length_cons] at hconsumed' ⊢
            omega

/-- Every run is a course and a stop. -/
theorem halts_of_run (h : m.run e room held bytes = .ok halt) :
    ∃ taken out z new e' spare,
      m.Halts ⟨e, room, held, bytes⟩ [] 0 taken out z new e' spare halt := by
  rw [run] at h
  rcases map_eq_ok h with ⟨before, hbytes, rfl⟩
  rcases halts_of_runBytes hbytes with ⟨taken, out, z, new, e', hhalts⟩
  have hheld : before.held = z.held := hhalts.held.trans List.take_length
  rw [giveBack]
  split
  next hreturns =>
    refine ⟨taken, out, z, new, e', min (before.held.length / 8) before.consumed,
      { hhalts with
        returns := fun hkeeps => ?_
        whole := ?_
        held := ?_
        consumed := ?_ }⟩
    · rw [hreturns] at hkeeps
      cases hkeeps
    · rw [hheld]
      omega
    · rw [hheld]
    · have hconsumed := hhalts.consumed
      dsimp only at hconsumed ⊢
      omega
  next => exact ⟨taken, out, z, new, e', 0, hhalts⟩

/-! ## What is kept on a course -/

/-- Nothing is lost on a course, and nothing is taken in twice. -/
theorem Course.balance (h : m.Course a taken out z) :
    a.held ++ m.bitsOf a.unread = taken ++ (z.held ++ m.bitsOf z.unread) := by
  induction h with
  | nil => rfl
  | looks _ _ _ ih => exact ih
  | feeds _ _ ih => exact congrArg (_ :: ·) ih
  | reads _ ih =>
      rw [List.append_assoc] at ih
      exact ih

theorem Course.path (h : m.Course a taken out z) (before : m.Path first bits v a.engine) :
    m.Path first (bits ++ taken) (v ++ out) z.engine := by
  induction h generalizing bits v with
  | nil =>
      rw [List.append_nil, List.append_nil]
      exact before
  | looks hsettle hprepare _ ih =>
      rw [← List.append_assoc]
      exact ih ((before.settled hsettle).prepared hprepare)
  | feeds hfeed _ ih =>
      rw [List.append_cons]
      exact ih (before.fed hfeed)
  | reads _ ih => exact ih before

theorem Closes.path {standing : Standing} (h : m.Closes z new e standing)
    (before : m.Path first bits v z.engine) : m.Path first bits (v ++ new.reverse) e := by
  cases h with
  | settled hsettle _ => exact before.settled hsettle
  | crowded hsettle hprepare => exact (before.settled hsettle).prepared hprepare
  | starved hsettle hprepare _ _ => exact (before.settled hsettle).prepared hprepare

theorem Halts.path {spare : Nat} (h : m.Halts a [] consumed taken out z new e spare halt)
    (before : m.Path first bits v a.engine) :
    m.Path first (bits ++ taken) (v ++ halt.written.reverse) halt.engine := by
  have hlast := h.closes.path (h.course.path before)
  have hwritten : v ++ halt.written.reverse = v ++ out ++ new.reverse := by
    rw [h.written]
    simp only [List.reverse_append, List.reverse_reverse, List.append_nil, List.append_assoc]
  rw [hwritten]
  by_cases hhungry : halt.standing = .hungry
  · rw [(h.hungry hhungry).2]
    exact hlast.paused
  · rw [h.sated hhungry]
    exact hlast

-- The bits of the bytes that were read and not given back.
theorem Halts.balance {spare : Nat} (h : m.Halts a [] 0 taken out z new e spare halt) :
    a.held ++ m.bitsOf (a.unread.take halt.consumed) = taken ++ halt.held := by
  have hconsumed := h.consumed
  have hlength : (a.held ++ m.bitsOf (a.unread.take halt.consumed)).length =
      (taken ++ halt.held).length := by
    have hall := congrArg List.length h.course.balance
    have hspare := h.whole
    rw [h.held]
    simp only [List.length_append, length_bitsOf, List.length_take] at hall ⊢
    omega
  -- Both are as long a beginning of all the bits there were.
  have hread : a.held ++ m.bitsOf (a.unread.take halt.consumed) <+:
      a.held ++ m.bitsOf a.unread := by
    refine ⟨m.bitsOf (a.unread.drop halt.consumed), ?_⟩
    rw [List.append_assoc, bitsOf, bitsOf, ← List.flatMap_append, List.take_append_drop, bitsOf]
  have htaken : taken ++ halt.held <+: a.held ++ m.bitsOf a.unread := by
    rw [h.course.balance, h.held]
    exact (List.prefix_append_right_inj _).mpr
      ((List.take_prefix _ _).trans (List.prefix_append _ _))
  exact (List.prefix_of_prefix_length_le hread htaken (Nat.le_of_eq hlength)).eq_of_length hlength

/-- A run keeps the account. -/
theorem Accounts.run (hbefore : m.Accounts first u v e held)
    (h : m.run e room held bytes = .ok halt) :
    halt.consumed ≤ bytes.length ∧ m.Accounts first (u ++ bytes.take halt.consumed)
      (v ++ halt.written.reverse) halt.engine halt.held := by
  rcases hbefore with ⟨before, hpath, hbits⟩
  rcases halts_of_run h with ⟨taken, out, z, new, e', spare, hhalts⟩
  have hconsumed := hhalts.consumed
  refine ⟨by dsimp only at hconsumed; omega, before ++ taken, hhalts.path hpath, ?_⟩
  have hnew : held ++ m.bitsOf (bytes.take halt.consumed) = taken ++ halt.held := hhalts.balance
  rw [bitsOf, List.flatMap_append, ← bitsOf, ← bitsOf, hbits, List.append_assoc, hnew,
    List.append_assoc]

/-- A condition on a machine and on what there is for it, kept whatever happens in a run. -/
structure Keeps (m : BitMachine ε E) (I : E → Supply → Prop) : Prop where
  looks : ∀ {e e' e'' : E} {s : Supply} {new : List UInt8} {appetite : Appetite}, I e s →
    m.settle e s.room = ⟨e', new, .ok .hungry⟩ →
    m.prepare e' ⟨s.room - new.length, s.held, s.unread⟩ = (e'', appetite) →
    I e'' ⟨s.room - new.length, s.held, s.unread⟩
  feeds : ∀ {e e' : E} {room unread : Nat} {b : Bool} {held : List Bool},
    I e ⟨room, b :: held, unread⟩ → m.feed e unread b = .ok e' → I e' ⟨room, held, unread⟩
  reads : ∀ {e : E} {room unread : Nat} {held : List Bool} (b : UInt8),
    I e ⟨room, held, unread + 1⟩ → I e ⟨room, held ++ m.order.bits b, unread⟩

theorem Keeps.course {I : E → Supply → Prop} (hm : m.Keeps I) (h : m.Course a taken out z)
    (hbefore : I a.engine a.supply) : I z.engine z.supply := by
  induction h with
  | nil => exact hbefore
  | looks hsettle hprepare _ ih => exact ih (hm.looks hbefore hsettle hprepare)
  | feeds hfeed _ ih => exact ih (hm.feeds hbefore hfeed)
  | reads _ ih => exact ih (hm.reads _ hbefore)

/-! ## Where a run ends -/

/-- A machine has stopped, within so much room and after so many bytes, because it is over, or has
    used up its room, or has taken in everything. -/
structure Exhausts (P : E → List Bool → Prop) (total read : Nat) (halt : Halt E) : Prop where
  room : halt.room + halt.written.length = total
  blocked : halt.standing = .blocked → halt.room = 0
  hungry : halt.standing = .hungry → halt.consumed = read ∧ P halt.engine halt.held

/-- The machine writes no more than there is room for. -/
def Fits (m : BitMachine ε E) : Prop :=
  ∀ {e e' : E} {room : Nat} {new : List UInt8} {standing : Standing},
    m.settle e room = ⟨e', new, .ok standing⟩ → new.length ≤ room

theorem Course.room_add_length (hm : m.Fits) (h : m.Course a taken out z) :
    z.room + out.length = a.room := by
  induction h with
  | nil => rfl
  | looks hsettle _ _ ih =>
      have hfits := hm hsettle
      rw [List.length_append, List.length_reverse]
      dsimp only at ih ⊢
      omega
  | feeds _ _ ih => exact ih
  | reads _ ih => exact ih

theorem Closes.fits (hm : m.Fits) {standing : Standing} (h : m.Closes z new e standing) :
    new.length ≤ z.room := by
  cases h with
  | settled hsettle _ => exact hm hsettle
  | crowded hsettle _ => exact hm hsettle
  | starved hsettle _ _ _ => exact hm hsettle

/-- A machine that reports its end is in a state in which it may. -/
theorem run_done {P : E → Prop}
    (hsettle : ∀ e room, (m.settle e room).standing = .ok .done → P (m.settle e room).engine)
    (h : m.run e room held bytes = .ok halt) (hdone : halt.standing = .done) : P halt.engine := by
  rcases halts_of_run h with ⟨taken, out, z, new, e', spare, hhalts⟩
  have hcloses := hhalts.closes
  rw [hhalts.sated (by rw [hdone]; exact Standing.noConfusion)]
  rw [hdone] at hcloses
  cases hcloses with
  | settled hlast _ =>
      have hP := hsettle z.engine z.room
      rw [hlast] at hP
      exact hP rfl

/-- A run that stops within its input only for want of room exhausts its room or its input. -/
theorem Halts.exhausts {P : E → List Bool → Prop} {spare : Nat}
    (h : m.Halts a [] 0 taken out z new e spare halt) (hm : m.Fits)
    (hkeeps : m.returns .hungry = false) (hblocked : halt.standing = .blocked → new.length = z.room)
    (hhungry : halt.standing = .hungry → P halt.engine z.held) :
    Exhausts P a.room a.unread.length halt where
  room := by
    have hcourse := h.course.room_add_length hm
    have hfits := h.closes.fits hm
    rw [h.room, h.written, List.length_append, List.length_append, List.length_reverse,
      List.length_nil]
    omega
  blocked hstanding := by
    rw [h.room, hblocked hstanding, Nat.sub_self]
  hungry hstanding := by
    have hspare : spare = 0 := h.returns (by rw [hstanding]; exact hkeeps)
    have hconsumed := h.consumed
    have hheld := h.held
    rw [hspare, Nat.mul_zero, Nat.sub_zero, List.take_length] at hheld
    rw [hspare, (h.hungry hstanding).1, List.length_nil, Nat.zero_add] at hconsumed
    exact ⟨hconsumed, hheld ▸ hhungry hstanding⟩

end BitMachine

end Decompression
