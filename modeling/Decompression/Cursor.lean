/-!
# Byte Cursors

A byte buffer together with a position in it. The part before the position has
been dealt with — read, on the input side, or filled, on the output side — and
the part after it has not.

Moving a cursor is unchecked: a decompression primitive says how far it got, and
nothing stops it from claiming more than the buffer holds. `InBounds` is the
condition under which the two parts exist, and `front?` and `rest?` answer only
then. `rest` is the total reading of the second part, which is empty once the
position is past the end.

## Main definitions

* `Cursor`: A buffer and a position.
* `Cursor.InBounds`: The position lies within the buffer.
* `Cursor.front?`, `Cursor.rest?`: The two parts, if the position is in bounds.
* `Cursor.overlay`: Replaces the bytes just after the position.
* `Cursor.fill`: Replaces them and moves past them.
* `Cursor.describe`: A cursor over a list of numbers, written out.
* `Cursor.describeText`: A cursor over a byte string, written out.

## Theorems

* `Cursor.front_append_rest`: The two parts make up the buffer.
* `Cursor.length_overlay`: Writing keeps the buffer's length.
* `Cursor.front_overlay`: Writing leaves the part before the position alone.
* `Cursor.front_fill`: What fits is written.
-/

namespace Decompression

/-- A byte buffer and how much of it has been dealt with. -/
structure Cursor where
  /-- The whole buffer. -/
  bytes : List UInt8
  /-- How many of its bytes lie before the position. -/
  index : Nat
  deriving DecidableEq, Repr

namespace Cursor

/-- A cursor at the start of a buffer. -/
def ofBytes (bytes : List UInt8) : Cursor :=
  ⟨bytes, 0⟩

instance : Inhabited Cursor :=
  ⟨ofBytes []⟩

/-- The position lies within the buffer, its end included. -/
def InBounds (c : Cursor) : Prop :=
  c.index ≤ c.bytes.length

instance (c : Cursor) : Decidable c.InBounds :=
  inferInstanceAs (Decidable (c.index ≤ c.bytes.length))

/-- The bytes before the position. -/
def front (c : Cursor) : List UInt8 :=
  c.bytes.take c.index

/-- The bytes after the position; none if it lies past the end. -/
def rest (c : Cursor) : List UInt8 :=
  c.bytes.drop c.index

/-- The bytes before the position, if it is in bounds. -/
def front? (c : Cursor) : Option (List UInt8) :=
  if c.InBounds then some c.front else none

/-- The bytes after the position, if it is in bounds. -/
def rest? (c : Cursor) : Option (List UInt8) :=
  if c.InBounds then some c.rest else none

/-- Moves the position forward, without looking where it ends up. -/
def advance (c : Cursor) (amount : Nat) : Cursor :=
  { c with index := c.index + amount }

/-- How many bytes lie after the position. -/
def room (c : Cursor) : Nat :=
  c.bytes.length - c.index

/-- Replaces the bytes just after the position by as much of `data` as fits. -/
def overlay (c : Cursor) (data : List UInt8) : Cursor :=
  let fitting := data.take c.room
  { c with bytes := c.front ++ (fitting ++ c.rest.drop fitting.length) }

/-- Writes as much of `data` as fits at the position and moves past it. -/
def fill (c : Cursor) (data : List UInt8) : Cursor :=
  (c.overlay data).advance (min data.length c.room)

theorem front_append_rest (c : Cursor) : c.front ++ c.rest = c.bytes :=
  List.take_append_drop c.index c.bytes

theorem length_rest (c : Cursor) : c.rest.length = c.room :=
  List.length_drop

theorem length_front {c : Cursor} (h : c.InBounds) : c.front.length = c.index := by
  unfold InBounds at h
  rw [front, List.length_take]
  omega

theorem length_overlay (c : Cursor) (data : List UInt8) (h : c.InBounds) :
    (c.overlay data).bytes.length = c.bytes.length := by
  unfold InBounds at h
  simp only [overlay, front, rest, room, List.length_append, List.length_take, List.length_drop]
  omega

theorem front_overlay (c : Cursor) (data : List UInt8) (h : c.InBounds) :
    (c.overlay data).front = c.front := by
  unfold InBounds at h
  have hlen : (c.bytes.take c.index).length = c.index := by
    rw [List.length_take]
    omega
  simp only [overlay, front]
  rw [List.take_append_of_le_length (by omega), List.take_of_length_le (by omega)]

theorem fill_eq {c : Cursor} {data : List UInt8} (h : data.length ≤ c.room) :
    c.fill data = ⟨c.front ++ (data ++ c.rest.drop data.length), c.index + data.length⟩ := by
  rw [fill, overlay, advance, List.take_of_length_le h, Nat.min_eq_left h]

theorem fill_nil (c : Cursor) : c.fill [] = c := by
  rw [fill_eq (Nat.zero_le _), List.length_nil, List.drop_zero, List.nil_append, front_append_rest,
    Nat.add_zero]

theorem fill_inBounds {c : Cursor} {data : List UInt8} (hin : c.InBounds)
    (h : data.length ≤ c.room) : (c.fill data).InBounds := by
  rw [InBounds, fill, advance, length_overlay c data hin, Nat.min_eq_left h]
  unfold InBounds at hin
  unfold room at h
  show c.index + data.length ≤ c.bytes.length
  omega

theorem front_fill {c : Cursor} {data : List UInt8} (hin : c.InBounds) (h : data.length ≤ c.room) :
    (c.fill data).front = c.front ++ data := by
  rw [fill_eq h, front, ← length_front hin, ← List.length_append, ← List.append_assoc,
    List.take_left]

/-! ## Written form -/

/-- A list of numbers in brackets, separated by commas. -/
def describeNumbers (bytes : List UInt8) : String :=
  "[" ++ ", ".intercalate (bytes.map fun b => toString b.toNat) ++ "]"

/-- A hexadecimal digit, in lower case. -/
def hexDigit (n : Nat) : Char :=
  if n < 10 then Char.ofNat (48 + n) else Char.ofNat (87 + n)

/-- Two hexadecimal digits. -/
def hexByte (b : UInt8) : String :=
  String.ofList [hexDigit (b.toNat / 16), hexDigit (b.toNat % 16)]

/-- One byte of a byte string in quotes: printable ASCII stands for itself, the
    common control characters, the quote and the backslash have a short escape,
    and every other byte is given in hexadecimal. -/
def quoteByte (b : UInt8) : String :=
  match b.toNat with
  | 10 => "\\n"
  | 13 => "\\r"
  | 9 => "\\t"
  | 92 => "\\\\"
  | 34 => "\\\""
  | 0 => "\\0"
  | n => if 32 ≤ n && n < 127 then String.singleton (Char.ofNat n) else "\\x" ++ hexByte b

/-- A byte string in quotes. -/
def describeString (bytes : List UInt8) : String :=
  "b\"" ++ String.join (bytes.map quoteByte) ++ "\""

/-- Frames the text of a buffer with the position in it. -/
def describeWith (buffer : List UInt8 → String) (c : Cursor) : String :=
  "PartialBuffer \x7b buffer: " ++ buffer c.bytes ++ ", index: " ++ toString c.index ++ " \x7d"

/-- The cursor with its buffer as a list of numbers. -/
def describe (c : Cursor) : String :=
  c.describeWith describeNumbers

/-- The cursor with its buffer as a byte string in quotes. -/
def describeText (c : Cursor) : String :=
  c.describeWith describeString

end Cursor

end Decompression
