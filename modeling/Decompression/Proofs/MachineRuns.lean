import Decompression.BitMachine

/-!
# Runs of Bit Machines

How far a machine reads ahead depends on how much input there is, so where the input is cut
shows in what is held back. It shows in nothing else as long as the machine takes in whole
bytes and writes nothing: `Reads` is such a way from one state to another. `run_reads` says
that a machine goes this way as far as the input lasts, and `run_finishes` that it gives back
whatever lies beyond the end if there is an end to the way.

A machine that is over when it is run again gives back everything at once.

## Main definitions

* `BitMachine.Stops`: A run over some bits, and where it stops.
* `BitMachine.Over`: Nothing is left to be done.
* `BitMachine.Starves`, `BitMachine.Takes`: The machine needs a byte, and takes it in.
* `BitMachine.Reads`: It takes in some bytes, one after another.
* `BitMachine.Finishes`: It writes what it owes, and is over.
* `BitMachine.Plain`: States in which the machine looks no further than the byte it is in.
* `BitMachine.takeBytes`: Takes in bytes as long as the machine is in such states.

## Theorems

* `stops_of_runBits`: Every run over some bits stops like this.
* `run_of_over`: A run of a machine that is over.
* `run_reads`, `run_finishes`: Runs over bytes that it takes in.
* `reads_of_takeBytes`: Bytes that can be seen to be taken in one by one.
-/

namespace Decompression.BitMachine

variable {ε E : Type} {m : BitMachine ε E} {e e' e'' : E} {room consumed unread ahead : Nat}
  {written new : List UInt8} {held bits : List Bool} {bytes : List UInt8} {halt : Halt E}

/-! ## The end of a run -/

/-- A run over some bits, and where it stops. -/
inductive Stops (m : BitMachine ε E) (consumed unread : Nat) :
    E → Nat → List UInt8 → List Bool → Halt E → Prop
  -- It is over, or it has no room for what it owes
  | settled {e e' : E} {room : Nat} {written new : List UInt8} {bits : List Bool}
      {standing : Standing} (settle : m.settle e room = ⟨e', new, .ok standing⟩)
      (waits : standing ≠ .hungry) :
      Stops m consumed unread e room written bits
        ⟨e', new ++ written, room - new.length, bits, consumed, standing, 0⟩
  -- It wants room before it takes in anything
  | crowded {e e' e'' : E} {room : Nat} {written new : List UInt8} {bits : List Bool}
      (settle : m.settle e room = ⟨e', new, .ok .hungry⟩)
      (prepare : m.prepare e' ⟨room - new.length, bits, unread⟩ = (e'', .room)) :
      Stops m consumed unread e room written bits
        ⟨e'', new ++ written, room - new.length, bits, consumed, .blocked, 0⟩
  -- It wants more than there is
  | starved {e e' e'' : E} {room wanted : Nat} {written new : List UInt8} {bits : List Bool}
      {appetite : Appetite} (settle : m.settle e room = ⟨e', new, .ok .hungry⟩)
      (prepare : m.prepare e' ⟨room - new.length, bits, unread⟩ = (e'', appetite))
      (more : appetite ≠ .room) (nothing : appetite = .bit → bits = []) :
      Stops m consumed unread e room written bits
        ⟨e'', new ++ written, room - new.length, bits, consumed, .hungry, wanted⟩
  -- It takes in a bit and goes on
  | fed {e e' e'' next : E} {room : Nat} {written new : List UInt8} {b : Bool} {bits : List Bool}
      {halt : Halt E} (settle : m.settle e room = ⟨e', new, .ok .hungry⟩)
      (prepare : m.prepare e' ⟨room - new.length, b :: bits, unread⟩ = (e'', .bit))
      (feed : m.feed e'' unread b = .ok next)
      (rest : Stops m consumed unread next (room - new.length) (new ++ written) bits halt) :
      Stops m consumed unread e room written (b :: bits) halt

/-- Every run over some bits stops like this. -/
theorem stops_of_runBits (h : m.runBits e room written consumed unread bits = .ok halt) :
    m.Stops consumed unread e room written bits halt := by
  induction bits generalizing e room written with
  | nil =>
      rw [runBits] at h
      rcases hs : m.settle e room with ⟨e', new, error | _ | _ | _⟩ <;> rw [hs] at h
      · cases h
      · dsimp only at h
        rcases hp : m.prepare e' ⟨room - new.length, [], unread⟩ with ⟨e'', _ | count | _⟩ <;>
          rw [hp] at h <;> cases h
        · exact .starved hs hp Appetite.noConfusion fun _ => rfl
        · exact .starved hs hp Appetite.noConfusion Appetite.noConfusion
        · exact .crowded hs hp
      · cases h
        exact .settled hs Standing.noConfusion
      · cases h
        exact .settled hs Standing.noConfusion
  | cons b bits ih =>
      rw [runBits] at h
      rcases hs : m.settle e room with ⟨e', new, error | _ | _ | _⟩ <;> rw [hs] at h
      · cases h
      · dsimp only at h
        rcases hp : m.prepare e' ⟨room - new.length, b :: bits, unread⟩ with
          ⟨e'', _ | count | _⟩ <;> rw [hp] at h <;> dsimp only at h
        · rcases hfeed : m.feed e'' unread b with error | next <;> rw [hfeed] at h
          · cases h
          · exact .fed hs hp hfeed (ih h)
        · cases h
          exact .starved hs hp Appetite.noConfusion Appetite.noConfusion
        · cases h
          exact .crowded hs hp
      · cases h
        exact .settled hs Standing.noConfusion
      · cases h
        exact .settled hs Standing.noConfusion

/-- Goes on with a machine that wants a bit; otherwise it has stopped for good. -/
def ifHungry (r : Except (Breakdown ε) (Halt E)) (next : Halt E → Except (Breakdown ε) (Halt E)) :
    Except (Breakdown ε) (Halt E) :=
  match r with
  | .error breakdown => .error breakdown
  | .ok halt => if halt.standing = .hungry then next halt else .ok halt

theorem ifHungry_cases {r : Except (Breakdown ε) (Halt E)}
    {next : Halt E → Except (Breakdown ε) (Halt E)}
    (h : ifHungry r next = .ok halt) :
    ∃ before, r = .ok before ∧ (before.standing = .hungry ∧ next before = .ok halt ∨
      before.standing ≠ .hungry ∧ before = halt) := by
  rcases r with breakdown | before
  · cases h
  · rw [ifHungry] at h
    split at h
    next hhungry => exact ⟨before, rfl, .inl ⟨hhungry, h⟩⟩
    next hsated => exact ⟨before, rfl, .inr ⟨hsated, Except.ok.inj h⟩⟩

-- Reading on at once.
theorem runBytes_ahead (m : BitMachine ε E) (e : E) (room : Nat) (written : List UInt8)
    (consumed : Nat) (held : List Bool) (ahead unread : Nat) (b : UInt8) (bytes : List UInt8) :
    m.runBytes e room written consumed held (ahead + 1) unread (b :: bytes) =
      m.runBytes e room written (consumed + 1) (held ++ m.order.bits b) ahead (unread - 1)
        bytes := by
  rw [runBytes]

-- Nothing left to read.
theorem runBytes_nil (m : BitMachine ε E) (e : E) (room : Nat) (written : List UInt8)
    (consumed : Nat) (held : List Bool) (ahead unread : Nat) :
    m.runBytes e room written consumed held ahead unread [] =
      ifHungry (m.runBits e room written consumed unread held)
        fun halt => .ok { halt with engine := m.pause halt.engine } := by
  rw [runBytes]
  · rcases m.runBits e room written consumed unread held with
      breakdown | ⟨_, _, _, _, _, _ | _ | _, _⟩ <;> rfl
  · rintro _ _ _ _ ⟨⟩

-- Something left to read, but not at once.
theorem runBytes_cons (m : BitMachine ε E) (e : E) (room : Nat) (written : List UInt8)
    (consumed : Nat) (held : List Bool) (unread : Nat) (b : UInt8) (bytes : List UInt8) :
    m.runBytes e room written consumed held 0 unread (b :: bytes) =
      ifHungry (m.runBits e room written consumed unread held) fun halt =>
        m.runBytes halt.engine halt.room halt.written (halt.consumed + 1)
          (halt.held ++ m.order.bits b) (halt.wanted - 1) (unread - 1) bytes := by
  rw [runBytes]
  · rcases m.runBits e room written consumed unread held with
      breakdown | ⟨_, _, _, _, _, _ | _ | _, _⟩ <;> rfl
  · rintro _ _ _ ⟨⟩

@[simp]
theorem giveBack_standing (m : BitMachine ε E) (halt : Halt E) :
    (m.giveBack halt).standing = halt.standing := by
  unfold giveBack
  split <;> rfl

@[simp]
theorem giveBack_written (m : BitMachine ε E) (halt : Halt E) :
    (m.giveBack halt).written = halt.written := by
  unfold giveBack
  split <;> rfl

/-- Nothing is left to be done. -/
def Over (m : BitMachine ε E) (e : E) : Prop :=
  ∀ room, m.settle e room = ⟨e, [], .ok .done⟩

theorem runBits_of_over (h : m.Over e) :
    m.runBits e room written consumed unread bits =
      .ok ⟨e, written, room, bits, consumed, .done, 0⟩ := by
  cases bits <;> rw [runBits, h room] <;> rfl

/-- A machine that is over reads nothing. -/
theorem run_of_over (h : m.Over e) (room : Nat) (held : List Bool) (bytes : List UInt8) :
    m.run e room held bytes = .ok ⟨e, [], room, held, 0, .done, 0⟩ := by
  have hrun : m.runBytes e room [] 0 held 0 bytes.length bytes =
      .ok ⟨e, [], room, held, 0, .done, 0⟩ := by
    cases bytes with
    | nil => rw [runBytes_nil, runBits_of_over h]; rfl
    | cons b bytes => rw [runBytes_cons, runBits_of_over h]; rfl
  rw [run, hrun]
  simp [Except.map, giveBack]

/-! ## Whole bytes -/

/-- The machine needs a byte. -/
def Starves (m : BitMachine ε E) (e : E) : Prop :=
  m.pause e = e ∧ ∀ {room}, 0 < room → ∀ written consumed unread, ∃ wanted,
    m.runBits e room written consumed unread [] =
      .ok ⟨e, written, room, [], consumed, .hungry, wanted⟩

/-- The machine takes in a byte, whatever comes after it. -/
def Takes (m : BitMachine ε E) (e : E) (b : UInt8) (e' : E) : Prop :=
  ∀ room written consumed unread bits,
    m.runBits e room written consumed unread (m.order.bits b ++ bits) =
      m.runBits e' room written consumed unread bits

/-- The machine takes in some bytes, one after another. -/
inductive Reads (m : BitMachine ε E) : E → List UInt8 → E → Prop
  | nil (e : E) : Reads m e [] e
  | cons {e e' e'' : E} {b : UInt8} {bytes : List UInt8} (starves : m.Starves e)
      (takes : m.Takes e b e') (rest : Reads m e' bytes e'') : Reads m e (b :: bytes) e''

/-- The machine writes what it owes, and is over. -/
def Finishes (m : BitMachine ε E) (e : E) (new : List UInt8) (e' : E) : Prop :=
  ∀ {room}, new.length ≤ room → ∀ written consumed unread bits,
    m.runBits e room written consumed unread bits =
      .ok ⟨e', new ++ written, room - new.length, bits, consumed, .done, 0⟩

theorem Starves.not_over (h : m.Starves e) : ¬ m.Over e := by
  intro hover
  rcases h.2 (Nat.one_pos) [] 0 0 with ⟨wanted, hrun⟩
  rw [runBits_of_over hover] at hrun
  cases hrun

theorem Over.finishes (h : m.Over e) : m.Finishes e [] e := fun _ _ _ _ _ => runBits_of_over h

/-- The bits of some bytes. -/
def bitsOf (m : BitMachine ε E) (bytes : List UInt8) : List Bool :=
  bytes.flatMap m.order.bits

theorem length_bitsOf (m : BitMachine ε E) (bytes : List UInt8) :
    (m.bitsOf bytes).length = 8 * bytes.length := by
  induction bytes with
  | nil => rfl
  | cons b bytes ih =>
      rw [bitsOf, List.flatMap_cons, List.length_append, BitOrder.length_bits, ← bitsOf, ih,
        List.length_cons]
      omega

theorem bitsOf_append_singleton (m : BitMachine ε E) (bytes : List UInt8) (b : UInt8) :
    m.bitsOf bytes ++ m.order.bits b = m.bitsOf (bytes ++ [b]) := by
  rw [bitsOf, bitsOf, List.flatMap_append, List.flatMap_singleton]

theorem bitsOf_singleton (m : BitMachine ε E) (b : UInt8) : m.bitsOf [b] = [] ++ m.order.bits b :=
  (m.bitsOf_append_singleton [] b).symm

theorem Reads.append_iff {y z : List UInt8} :
    m.Reads e (y ++ z) e'' ↔ ∃ e', m.Reads e y e' ∧ m.Reads e' z e'' := by
  induction y generalizing e with
  | nil =>
      refine ⟨fun h => ⟨e, .nil e, h⟩, ?_⟩
      rintro ⟨_, ⟨⟩, h⟩
      exact h
  | cons b y ih =>
      constructor
      · rintro (_ | ⟨hstarves, htakes, h⟩)
        rcases ih.mp h with ⟨e', hy, hz⟩
        exact ⟨e', .cons hstarves htakes hy, hz⟩
      · rintro ⟨e', _ | ⟨hstarves, htakes, hy⟩, hz⟩
        exact .cons hstarves htakes (ih.mpr ⟨e', hy, hz⟩)

theorem Reads.starves (h : m.Reads e bytes e') (hmore : bytes ≠ []) : m.Starves e := by
  cases h with
  | nil => exact absurd rfl hmore
  | cons hstarves _ _ => exact hstarves

theorem runBits_reads (h : m.Reads e bytes e') :
    m.runBits e room written consumed unread (m.bitsOf bytes ++ bits) =
      m.runBits e' room written consumed unread bits := by
  induction h with
  | nil => rfl
  | cons _ htakes _ ih =>
      rw [bitsOf, List.flatMap_cons, List.append_assoc, htakes, ← bitsOf, ih]

-- Bytes that have been read ahead run out, and the machine needs another one.
theorem runBits_starved (h : m.Reads e bytes e') (hstarves : m.Starves e') (hroom : 0 < room)
    (written : List UInt8) (consumed unread : Nat) :
    ∃ wanted, m.runBits e room written consumed unread (m.bitsOf bytes) =
      .ok ⟨e', written, room, [], consumed, .hungry, wanted⟩ := by
  rcases hstarves.2 hroom written consumed unread with ⟨wanted, hrun⟩
  refine ⟨wanted, ?_⟩
  rw [← hrun, ← runBits_reads h, List.append_nil]

theorem runBytes_reads {first : List UInt8} (h : m.Reads e (first ++ bytes) e')
    (hstarves : m.Starves e') (hroom : 0 < room) :
    ∃ wanted, m.runBytes e room written consumed (m.bitsOf first) ahead unread bytes =
      .ok ⟨e', written, room, [], consumed + bytes.length, .hungry, wanted⟩ := by
  induction bytes generalizing e first consumed ahead unread with
  | nil =>
      rw [List.append_nil] at h
      rcases runBits_starved h hstarves hroom written consumed unread with ⟨wanted, hrun⟩
      refine ⟨wanted, ?_⟩
      rw [runBytes_nil, hrun]
      exact congrArg (fun e => Except.ok (Halt.mk e written room [] consumed .hungry wanted))
        hstarves.1
  | cons b bytes ih =>
      have hcount : consumed + 1 + bytes.length = consumed + (b :: bytes).length := by
        rw [List.length_cons]
        omega
      cases ahead with
      | zero =>
          rcases Reads.append_iff.mp h with ⟨e₁, hfirst, hrest⟩
          rcases runBits_starved hfirst (hrest.starves (List.cons_ne_nil _ _)) hroom written
            consumed unread with ⟨wanted, hrun⟩
          have hrest : m.Reads e₁ ([b] ++ bytes) e' := hrest
          rw [runBytes_cons, hrun, ← hcount]
          simp only [ifHungry, if_true, ← bitsOf_singleton]
          exact ih hrest
      | succ ahead =>
          rw [List.append_cons] at h
          rw [runBytes_ahead, bitsOf_append_singleton, ← hcount]
          exact ih h

-- There is nothing to give back.
theorem giveBack_of_held {wanted : Nat} {standing : Standing} :
    m.giveBack ⟨e, written, room, [], consumed, standing, wanted⟩ =
      ⟨e, written, room, [], consumed, standing, wanted⟩ := by
  unfold giveBack
  split <;> simp

/-- The machine takes in everything if there is less than it needs. -/
theorem run_reads (h : m.Reads e bytes e') (hstarves : m.Starves e') (hroom : 0 < room) :
    ∃ wanted, m.run e room [] bytes = .ok ⟨e', [], room, [], bytes.length, .hungry, wanted⟩ := by
  have hbytes : ∃ wanted, m.runBytes e room [] 0 (m.bitsOf []) 0 bytes.length bytes =
      .ok ⟨e', [], room, [], 0 + bytes.length, .hungry, wanted⟩ := runBytes_reads h hstarves hroom
  rcases hbytes with ⟨wanted, hrun⟩
  refine ⟨wanted, ?_⟩
  rw [Nat.zero_add] at hrun
  rw [run]
  exact (congrArg (Except.map m.giveBack) hrun).trans (congrArg Except.ok giveBack_of_held)

theorem runBytes_finishes {first y t : List UInt8} (h : m.Reads e y e')
    (hfin : m.Finishes e' new e'') (hall : first ++ bytes = y ++ t) (hpos : 0 < room)
    (hroom : new.length ≤ room) :
    ∃ spare left, t = spare ++ left ∧
      m.runBytes e room written consumed (m.bitsOf first) ahead unread bytes =
        .ok ⟨e'', new ++ written, room - new.length, m.bitsOf spare,
          consumed + bytes.length - left.length, .done, 0⟩ := by
  -- Whatever has been read beyond the end is held back.
  have hover : ∀ {e consumed unread first y spare}, m.Reads e y e' → first = y ++ spare →
      m.runBits e room written consumed unread (m.bitsOf first) =
        .ok ⟨e'', new ++ written, room - new.length, m.bitsOf spare, consumed, .done, 0⟩ := by
    rintro e consumed unread _ y spare h rfl
    rw [bitsOf, List.flatMap_append, ← bitsOf, runBits_reads h]
    exact hfin hroom written consumed unread _
  induction bytes generalizing e first y consumed ahead unread with
  | nil =>
      rw [List.append_nil] at hall
      refine ⟨t, [], (List.append_nil t).symm, ?_⟩
      rw [runBytes_nil, hover h hall]
      rfl
  | cons b bytes ih =>
      have hcount : consumed + (b :: bytes).length = consumed + 1 + bytes.length := by
        rw [List.length_cons]
        omega
      rw [hcount]
      cases ahead with
      | zero =>
          rw [runBytes_cons]
          rcases List.append_eq_append_iff.mp hall with ⟨rest, hy, hrest⟩ | ⟨spare, hfirst, ht⟩
          · cases rest with
            | nil =>
                rw [List.append_nil] at hy
                refine ⟨[], b :: bytes, hrest.symm, ?_⟩
                rw [hover h (hy.symm.trans (List.append_nil y).symm), List.length_cons,
                  show consumed + 1 + bytes.length - (bytes.length + 1) = consumed by omega]
                rfl
            | cons b' rest =>
                cases hrest
                rw [hy] at h
                rcases Reads.append_iff.mp h with ⟨e₁, hfirst, hrest⟩
                rcases runBits_starved hfirst (hrest.starves (List.cons_ne_nil _ _)) hpos written
                  consumed unread with ⟨wanted, hrun⟩
                rw [hrun]
                simp only [ifHungry, if_true, ← bitsOf_singleton]
                exact ih hrest rfl
          · refine ⟨spare, b :: bytes, ht, ?_⟩
            rw [hover h hfirst, List.length_cons,
              show consumed + 1 + bytes.length - (bytes.length + 1) = consumed by omega]
            rfl
      | succ ahead =>
          rw [runBytes_ahead, bitsOf_append_singleton]
          rw [List.append_cons] at hall
          exact ih h hall

/-- The machine gives back what lies beyond the end. -/
theorem run_finishes {y t : List UInt8} (h : m.Reads e y e') (hfin : m.Finishes e' new e'')
    (hreturns : m.returns .done = true) (hpos : 0 < room) (hroom : new.length ≤ room) :
    m.run e room [] (y ++ t) = .ok ⟨e'', new, room - new.length, [], y.length, .done, 0⟩ := by
  have hbytes : ∃ spare left, t = spare ++ left ∧
      m.runBytes e room [] 0 (m.bitsOf []) 0 (y ++ t).length (y ++ t) =
        .ok ⟨e'', new ++ [], room - new.length, m.bitsOf spare,
          0 + (y ++ t).length - left.length, .done, 0⟩ := runBytes_finishes h hfin rfl hpos hroom
  rcases hbytes with ⟨spare, left, rfl, hrun⟩
  rw [run]
  refine (congrArg (Except.map m.giveBack) hrun).trans (congrArg Except.ok ?_)
  have hread : 0 + (y ++ (spare ++ left)).length - left.length = y.length + spare.length := by
    simp only [List.length_append]
    omega
  have hspare : min ((m.bitsOf spare).length / 8) (y.length + spare.length) = spare.length := by
    rw [length_bitsOf]
    omega
  rw [hread, giveBack, if_pos hreturns, List.append_nil]
  dsimp only
  rw [hspare, length_bitsOf, Nat.sub_self, List.take_zero, Nat.add_sub_cancel]

/-! ## Plain bytes -/

/-- States in which a machine owes nothing and looks no further than the byte it is in, of which
    it has so many bits left. -/
structure Plain (m : BitMachine ε E) (plain : E → Nat → Bool) : Prop where
  settles : ∀ {e n}, plain e n = true → ∀ room, m.settle e room = ⟨e, [], .ok .hungry⟩
  takes : ∀ {e n}, plain e n = true → ∀ {s : Supply}, n ≤ s.held.length → 0 < n →
    m.prepare e s = (e, .bit)
  feeds : ∀ {e n}, plain e n = true → ∀ unread b, m.feed e unread b = m.feed e 0 b
  starves : ∀ {e n}, plain e n = true → ∀ {s : Supply}, s.held = [] → 0 < s.room →
    ∃ wanted, m.prepare e s = (e, .bytes wanted)
  pauses : ∀ {e n}, plain e n = true → m.pause e = e

/-- Takes in some bits, as long as the machine is in plain states. -/
def takeBits (m : BitMachine ε E) (plain : E → Nat → Bool) (e : E) : List Bool → Option E
  | [] => some e
  | b :: bits =>
    if plain e (bits.length + 1) then
      match m.feed e 0 b with
      | .ok e => takeBits m plain e bits
      | .error _ => none
    else none

/-- Takes in some bytes, as long as the machine is in plain states. -/
def takeBytes (m : BitMachine ε E) (plain : E → Nat → Bool) (e : E) : List UInt8 → Option E
  | [] => some e
  | b :: bytes => (takeBits m plain e (m.order.bits b)).bind fun e => takeBytes m plain e bytes

section Plain

variable {plain : E → Nat → Bool}

theorem runBits_of_takeBits (hplain : m.Plain plain) {more : List Bool}
    (h : m.takeBits plain e more = some e') :
    m.runBits e room written consumed unread (more ++ bits) =
      m.runBits e' room written consumed unread bits := by
  induction more generalizing e with
  | nil =>
      cases h
      rfl
  | cons b more ih =>
      rw [takeBits] at h
      split at h
      next hready =>
        rcases hfeed : m.feed e 0 b with error | next <;> rw [hfeed] at h
        · cases h
        · have hprepare : m.prepare e ⟨room - ([] : List UInt8).length, b :: more ++ bits, unread⟩ =
              (e, .bit) := hplain.takes hready (by simp) (Nat.succ_pos _)
          rw [← ih h, List.cons_append, runBits, hplain.settles hready]
          dsimp only
          rw [List.cons_append] at hprepare
          rw [hprepare]
          dsimp only
          rw [hplain.feeds hready, hfeed]
          rfl
      next => cases h

theorem starves_of_plain (hplain : m.Plain plain) {n : Nat} (h : plain e n = true) :
    m.Starves e := by
  refine ⟨hplain.pauses h, fun {room} hroom written consumed unread => ?_⟩
  rcases hplain.starves h (s := ⟨room - ([] : List UInt8).length, [], unread⟩) rfl hroom with
    ⟨wanted, hprepare⟩
  refine ⟨wanted, ?_⟩
  rw [runBits, hplain.settles h]
  dsimp only
  rw [hprepare]
  rfl

/-- What is taken in in plain states is read, however it is cut. -/
theorem reads_of_takeBytes (hplain : m.Plain plain) (h : m.takeBytes plain e bytes = some e') :
    m.Reads e bytes e' := by
  induction bytes generalizing e with
  | nil =>
      cases h
      exact .nil _
  | cons b bytes ih =>
      rw [takeBytes, Option.bind_eq_some_iff] at h
      rcases h with ⟨next, hbits, hrest⟩
      refine .cons ?_ (fun _ _ _ _ _ => runBits_of_takeBits hplain hbits) (ih hrest)
      rcases hb : m.order.bits b with _ | ⟨bit, more⟩
      · have hlength := m.order.length_bits b
        rw [hb] at hlength
        cases hlength
      · rw [hb, takeBits] at hbits
        split at hbits
        next hready => exact starves_of_plain hplain hready
        next => cases hbits

end Plain

end Decompression.BitMachine
