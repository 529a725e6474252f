import Decompression.Bzip2.Checksum
import Decompression.Bzip2.Randomizer

/-!
# From a Sorted Column to the Output

The content of a block is the last column of its sorted rotations. Each place of the
column knows the place whose byte comes next in the block, so following the places
from the origin gives the block's bytes, as often as one likes.

Those bytes are themselves run-length coded: after four equal bytes comes a count of
further ones. The unroller reads one byte ahead, because a run ends only where another
byte is seen. A block that ends within four equal bytes and their count is corrupt, but
that shows only once the run has been written out; until then reading simply goes on
around the rotation.

A block is written run by run or byte by byte, and the two differ for a corrupt block
only. Byte by byte, it is looked at whenever there is room for a byte. Run by run, it is
looked at after each run, but not if that has used up the room, and then at the beginning
of the next step; and what the step has written of the block until then does not count.

## Main definitions

* `successors`: Which place comes after which.
* `Unroller`: A block that is being written out.
* `Unroller.ofColumn`: A block at its beginning.
* `Unroller.startRun`: Finds the next run.
* `Unroller.refresh`: Makes sure that there is a byte to write.
* `Drained`: A block that has been written as far as possible.
* `Unroller.drain`: Writes a block into so much room.
-/

namespace Decompression.Bzip2

/-- At which place of the sorted column each byte value begins. -/
def starts (column : Array UInt8) : Array Nat :=
  let counts := column.foldl (fun counts b => counts.modify b.toNat (· + 1)) (Array.replicate 256 0)
  (counts.foldl (fun (acc : Array Nat × Nat) n => (acc.1.push acc.2, acc.2 + n)) (#[], 0)).1

/-- The state in which successors are found: the next place for each byte value, the
    successors so far, and the place at hand. -/
structure Linking where
  /-- The next place for each byte value. -/
  heads : Array Nat
  /-- The successors found so far. -/
  links : Array Nat
  /-- The place at hand. -/
  place : Nat

/-- Links the place at hand. -/
def Linking.push (l : Linking) (b : UInt8) : Linking :=
  let ⟨heads, links, place⟩ := l
  ⟨heads.modify b.toNat (· + 1), links.setIfInBounds (heads.getD b.toNat 0) place, place + 1⟩

/-- Which place of the column comes after which: equal bytes keep their order. -/
def successors (column : Array UInt8) : Array Nat :=
  (column.foldl Linking.push ⟨starts column, Array.replicate column.size 0, 0⟩).links

/-- A block that is being written out. -/
structure Unroller where
  /-- The last column of the sorted rotations. -/
  column : Array UInt8
  /-- Which place comes after which. -/
  links : Array Nat
  /-- It is written byte by byte, and not run by run. -/
  bytewise : Bool
  /-- Which bytes are flipped, if the block is randomised. -/
  randomizer : Option Randomizer
  /-- The place of the byte that is read next. -/
  place : Nat
  /-- How many bytes have been read. -/
  read : Nat
  /-- The last byte read, unless it belongs to the run at hand. -/
  ahead : UInt8
  /-- The byte of the run at hand. -/
  byte : UInt8
  /-- How many bytes of that run are left to write. -/
  left : Nat
  /-- The check of the bytes written. -/
  check : Checksum

namespace Unroller

/-- Undoes the randomisation of a byte. -/
def unflip (u : Unroller) (b : UInt8) : UInt8 × Option Randomizer :=
  match u.randomizer with
  | none => (b, none)
  | some r => (if r.next.1 then b ^^^ 1 else b, some r.next.2)

/-- Reads a byte. -/
def take (u : Unroller) : UInt8 × Unroller :=
  let (b, randomizer) := u.unflip (u.column.getD u.place 0)
  (b, { u with randomizer := randomizer, place := u.links.getD u.place 0, read := u.read + 1 })

/-- A block at its beginning: one byte has been read. A randomised block is written byte
    by byte in any case. -/
def ofColumn (bytewise randomised : Bool) (column : Array UInt8) (origin : Nat) : Unroller :=
  let links := successors column
  let randomizer := if randomised then some .start else none
  let (b, u) := take ⟨column, links, bytewise || randomised, randomizer, links.getD origin 0, 0, 0,
    0, 0, .empty⟩
  { u with ahead := b }

/-- Everything has been read, one byte more included. -/
def isExhausted (u : Unroller) : Bool :=
  u.read == u.column.size + 1

/-- Goes on with a run, of which so many more bytes may come before a count. -/
def extendRun : Nat → Unroller → Unroller
  | 0, u =>
    -- Four equal bytes have been read: a count follows, and then the byte after the run.
    let (count, u) := u.take
    let (b, u) := u.take
    { u with ahead := b, left := count.toNat + 4 }
  | more + 1, u =>
    let (b, u) := u.take
    if b ≠ u.byte || u.isExhausted then { u with ahead := b, left := 3 - more }
    else extendRun more u

/-- Finds the next run. -/
def startRun (u : Unroller) : Unroller :=
  extendRun 3 { u with byte := u.ahead }

/-- A block that may have come to its end. -/
inductive Refreshed where
  /-- There is a byte to write. -/
  | ready (u : Unroller)
  /-- Everything has been written. -/
  | finished (check : Checksum)
  /-- The block ended within a run. -/
  | corrupt

/-- Makes sure that there is a byte to write. -/
def refresh (u : Unroller) : Refreshed :=
  if 0 < u.left then .ready u
  -- A run whose count lies past the end has been written out before this shows.
  else if u.column.size + 1 < u.read then .corrupt
  else if u.isExhausted then .finished u.check
  else .ready u.startRun

/-- Writes a byte of the run at hand. -/
def tick (u : Unroller) : Unroller :=
  { u with left := u.left - 1, check := u.check.push u.byte }

/-- A block that has been written as far as possible. -/
inductive Drained where
  /-- The room is used up. -/
  | blocked (u : Unroller)
  /-- Everything has been written. -/
  | finished (check : Checksum)
  /-- The block ended within a run. -/
  | corrupt

/-- A corrupt block is not looked at once the room is used up, except run by run before
    anything has been written. -/
def isOverlooked (u : Unroller) (room : Nat) (written : List UInt8) : Bool :=
  room == 0 && (u.bytewise || !written.isEmpty)

/-- Writes a block into so much room, the bytes before those in `written`. -/
def drain (room : Nat) (u : Unroller) (written : List UInt8) : Drained × List UInt8 :=
  match u.refresh with
  | .corrupt =>
    if u.isOverlooked room written then (.blocked u, written)
    else (.corrupt, if u.bytewise then written else [])
  | .finished check => (.finished check, written)
  | .ready u =>
    match room with
    | 0 => (.blocked u, written)
    | room + 1 => drain room u.tick (u.byte :: written)

end Unroller

end Decompression.Bzip2
