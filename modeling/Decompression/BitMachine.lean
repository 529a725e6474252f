import Decompression.Bits

/-!
# Bit Machines

A decoder of a compressed format is a machine that takes in bits and now and then
owes output. It is run by letting it write what it owes, as far as there is room, and
feeding it a bit whenever it wants one, until it is over, or out of room, or out of
input.

Input comes in bytes and is taken in bits, so some bits that have been read may be left
over when a machine stops. They are held back for the next run, and the bytes they came
from count as read. How many there can be is up to the machine: before every bit it looks
at what there is and may have further bytes read first. When it stops it may give back
the whole bytes that it read too many, and when it stops for want of input it may forget
something, which is then read differently in the next run.

## Main definitions

* `Standing`: What a machine is waiting for.
* `Settled`: A machine after it has written what it could.
* `Supply`, `Appetite`: What there is for a machine, and what it wants first.
* `BitMachine`: A machine that takes in bits and owes output.
* `Halt`, `Breakdown`: A machine that has stopped, and one that has broken down.
* `BitMachine.run`: Runs a machine over held-back bits and further bytes.
-/

namespace Decompression

/-- What a machine is waiting for. -/
inductive Standing where
  /-- A bit. -/
  | hungry
  /-- Room for the output it owes. -/
  | blocked
  /-- Nothing: it is over. -/
  | done
  deriving DecidableEq, Repr

/-- A machine after it has written what it could. -/
structure Settled (ε E : Type) where
  /-- The machine. -/
  engine : E
  /-- What it wrote, the latest byte first. -/
  written : List UInt8
  /-- What it is waiting for, or what it found wrong. -/
  standing : Except ε Standing

/-- What there is for a machine to go on with. -/
structure Supply where
  /-- How many bytes there is room for. -/
  room : Nat
  /-- The bits that have been read and not been fed. -/
  held : List Bool
  /-- How many bytes have not been read. -/
  unread : Nat
  deriving DecidableEq, Repr

/-- What a machine wants before it goes on. -/
inductive Appetite where
  /-- The next bit, if it has been read. -/
  | bit
  /-- So many bytes, or as many of them as there are. -/
  | bytes (count : Nat)
  /-- Room for output. -/
  | room
  deriving DecidableEq, Repr

/-- A machine that takes in bits and owes output, and may find something wrong. -/
structure BitMachine (ε E : Type) where
  /-- Which bit of a byte comes first. -/
  order : BitOrder
  /-- Lets the machine write what it owes into so much room. -/
  settle : E → Nat → Settled ε E
  /-- Lets the machine look at what there is before it is fed a bit. -/
  prepare : E → Supply → E × Appetite
  /-- Feeds it a bit, while so many bytes have not been read. -/
  feed : E → Nat → Bool → Except ε E
  /-- Leaves the machine without input. -/
  pause : E → E
  /-- Whether it gives back whole bytes when it stops like this. -/
  returns : Standing → Bool

/-- A machine that has stopped. -/
structure Halt (E : Type) where
  /-- The machine. -/
  engine : E
  /-- What it wrote, the latest byte first. -/
  written : List UInt8
  /-- How many bytes of room are left. -/
  room : Nat
  /-- Bits that have been read and not been fed. -/
  held : List Bool
  /-- How many bytes have been read. -/
  consumed : Nat
  /-- What the machine is waiting for. -/
  standing : Standing
  /-- How many bytes it wants read at once, if it is waiting for a bit. -/
  wanted : Nat

/-- A machine that has broken down. -/
structure Breakdown (ε : Type) where
  /-- What it found wrong. -/
  error : ε
  /-- How many bytes it wrote before that. -/
  written : Nat
  deriving DecidableEq, Repr

namespace BitMachine

variable {ε E : Type}

/-- Runs a machine over some bits, until it wants something else. -/
def runBits (m : BitMachine ε E) (engine : E) (room : Nat) (written : List UInt8)
    (consumed unread : Nat) (bits : List Bool) : Except (Breakdown ε) (Halt E) :=
  match m.settle engine room with
  | ⟨_, new, .error error⟩ => .error ⟨error, (new ++ written).length⟩
  | ⟨engine, new, .ok .hungry⟩ =>
    let written := new ++ written
    let room := room - new.length
    match m.prepare engine ⟨room, bits, unread⟩, bits with
    | (engine, .bit), b :: bits =>
      match m.feed engine unread b with
      | .error error => .error ⟨error, written.length⟩
      | .ok engine => runBits m engine room written consumed unread bits
    | (engine, .bit), [] => .ok ⟨engine, written, room, [], consumed, .hungry, 1⟩
    | (engine, .bytes count), bits =>
      .ok ⟨engine, written, room, bits, consumed, .hungry, count⟩
    | (engine, .room), bits => .ok ⟨engine, written, room, bits, consumed, .blocked, 0⟩
  | ⟨engine, new, .ok standing⟩ =>
    .ok ⟨engine, new ++ written, room - new.length, bits, consumed, standing, 0⟩

/-- Runs a machine over held-back bits and further bytes, of which there are `unread`, and
    `ahead` are read before anything else happens. -/
def runBytes (m : BitMachine ε E) (engine : E) (room : Nat) (written : List UInt8) (consumed : Nat)
    (held : List Bool) (ahead unread : Nat) (bytes : List UInt8) : Except (Breakdown ε) (Halt E) :=
  match ahead, bytes with
  -- Bytes are still being read at once.
  | ahead + 1, b :: bytes =>
    runBytes m engine room written (consumed + 1) (held ++ m.order.bits b) ahead (unread - 1)
      bytes
  -- The machine takes what it can, and is given more only if it is still hungry.
  | _, bytes =>
    match runBits m engine room written consumed unread held with
    | .error breakdown => .error breakdown
    | .ok ⟨engine, written, room, held, consumed, .hungry, wanted⟩ =>
      match bytes with
      | [] => .ok ⟨m.pause engine, written, room, held, consumed, .hungry, wanted⟩
      | b :: bytes =>
        runBytes m engine room written (consumed + 1) (held ++ m.order.bits b) (wanted - 1)
          (unread - 1) bytes
    | .ok halt => .ok halt

/-- Gives back whole bytes that a machine has read and does not need. -/
def giveBack (m : BitMachine ε E) (h : Halt E) : Halt E :=
  if m.returns h.standing then
    let spare := min (h.held.length / 8) h.consumed
    { h with held := h.held.take (h.held.length - 8 * spare), consumed := h.consumed - spare }
  else h

/-- Runs a machine over held-back bits and further bytes, with so much room for output. -/
def run (m : BitMachine ε E) (engine : E) (room : Nat) (held : List Bool) (bytes : List UInt8) :
    Except (Breakdown ε) (Halt E) :=
  (runBytes m engine room [] 0 held 0 bytes.length bytes).map m.giveBack

end BitMachine

end Decompression
