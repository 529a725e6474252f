/-!
# Decoding Window

A back reference copies bytes that were decoded up to 32768 places ago. The window
keeps exactly that many of them, in a ring that is overwritten from its start again
and again. Before anything has been decoded it holds zeros, so a reference to before
the beginning of the stream copies zeros.

## Main definitions

* `Window`: The last bytes decoded.
* `Window.push`: Takes in a byte.
* `Window.back`: The byte a given distance ago.
* `Window.place`: How many bytes fit before the ring starts over.

## Theorems

* `Window.place_pos`: There is always a place for another byte.
-/

namespace Decompression.Deflate

/-- How many bytes a back reference can reach. -/
def windowSize : Nat :=
  32768

/-- The last bytes decoded, in a ring. -/
structure Window where
  /-- The ring. -/
  cells : Array UInt8
  /-- Where the next byte goes. -/
  next : Fin windowSize

namespace Window

/-- A window over nothing decoded yet. -/
def empty : Window :=
  ⟨Array.replicate windowSize 0, 0, by decide⟩

/-- Takes in a byte. -/
def push (w : Window) (b : UInt8) : Window :=
  ⟨w.cells.setIfInBounds w.next b,
    (w.next + 1) % windowSize, Nat.mod_lt _ (by decide)⟩

/-- The byte that was taken in `distance` bytes ago. -/
def back (w : Window) (distance : Nat) : UInt8 :=
  w.cells.getD ((w.next + (windowSize - distance)) % windowSize) 0

/-- How many bytes fit before the ring starts over. -/
def place (w : Window) : Nat :=
  windowSize - w.next

theorem place_pos (w : Window) : 0 < w.place :=
  Nat.sub_pos_of_lt w.next.isLt

end Window

end Decompression.Deflate
