/-!
# Bits

Compressed formats pack their fields into bits, and two formats need not agree on
which bit of a byte comes first. A field is either a number of a fixed width or a
codeword of a prefix code; both are taken in one bit at a time, because the input may
break off after any byte.

A prefix code is canonical: it is given by the number of codewords of each length,
and the codewords of one length are consecutive numbers that follow on from those of
the length before. The bits read so far are a codeword exactly if, as a number, they
lie among those of their length, and they begin a longer one exactly if they lie among
the next few numbers, the openings of that length. Nothing asks the lengths to fit.
Where there are too few codewords, some bit strings begin none, and are given up; a
code may ask for a number of bits before that happens. Where there are too many, the
later ones are never met.

## Main definitions

* `BitOrder`, `BitOrder.bits`: The bits of a byte, in the order in which they come.
* `PrefixCode`, `PrefixCode.ofLengths`: A canonical code, from its codeword lengths.
* `Field`: What comes next in the input.
* `FieldState`, `Field.feed`: Taking in a field one bit at a time.
-/

namespace Decompression

/-- Which bit of a byte comes first. -/
inductive BitOrder where
  /-- The bit of least value. -/
  | lowFirst
  /-- The bit of greatest value. -/
  | highFirst
  deriving DecidableEq, Repr

/-- The bits of a byte, in the order in which they come. -/
def BitOrder.bits (order : BitOrder) (b : UInt8) : List Bool :=
  match order with
  | .lowFirst => [0, 1, 2, 3, 4, 5, 6, 7].map b.toNat.testBit
  | .highFirst => [7, 6, 5, 4, 3, 2, 1, 0].map b.toNat.testBit

theorem BitOrder.length_bits (order : BitOrder) (b : UInt8) : (order.bits b).length = 8 := by
  cases order <;> rfl

/-- A canonical prefix code. -/
structure PrefixCode where
  /-- How many codewords there are of one bit, of two bits, and so on. -/
  counts : Array Nat
  /-- The symbols, those with shorter codewords first. -/
  symbols : Array Nat
  /-- How many bit strings of one bit, of two bits, and so on begin a longer codeword. -/
  openings : Array Nat
  /-- How many bits are read at least before a string that begins no codeword is given up. -/
  patience : Nat
  deriving DecidableEq, Repr

namespace PrefixCode

/-- The positions at which a list holds a given value. -/
def positions (lengths : List Nat) (length : Nat) : List Nat :=
  (lengths.zipIdx.filter fun p => p.1 == length).map Prod.snd

/-- How many strings of each length begin a longer codeword, from the numbers of
    codewords: two bits can follow each of them. -/
def openingsOf : List Nat → List Nat
  | [] => []
  | _ :: counts =>
    match counts, openingsOf counts with
    | count :: _, opening :: openings => (count + opening + 1) / 2 :: opening :: openings
    | _, openings => 0 :: openings

/-- The code in which symbol number `i` has a codeword of the `i`-th length; none for
    length zero. No length is more than `longest`. -/
def ofLengths (longest patience : Nat) (lengths : List Nat) : PrefixCode :=
  let classes := (List.range longest).map fun i => positions lengths (i + 1)
  let counts := classes.map List.length
  ⟨counts.toArray, classes.flatten.toArray, (openingsOf counts).toArray, patience⟩

/-- The length of the shortest codeword; one if there is none. -/
def shortest (code : PrefixCode) : Nat :=
  match code.counts.findIdx? (· != 0) with
  | some i => i + 1
  | none => 1

/-- How many bit strings of `longest` bits begin with a codeword, if no two codewords
    have one in common. -/
def coverage (longest : Nat) (lengths : List Nat) : Nat :=
  (lengths.map fun n => if n = 0 then 0 else 1 <<< (longest - n)).foldr (· + ·) 0

/-- There are just enough codewords for every long enough bit string to begin with one. -/
def isComplete (longest : Nat) (lengths : List Nat) : Bool :=
  coverage longest lengths == 1 <<< longest

end PrefixCode

/-- What comes next in the input. -/
inductive Field where
  /-- A number of a fixed width. -/
  | number (width : Nat)
  /-- A codeword. -/
  | symbol (code : PrefixCode)

/-- How much of a field has been taken in. -/
structure FieldState where
  /-- The number of bits. -/
  length : Nat
  /-- The bits as a number. -/
  value : Nat
  /-- Of a codeword: the least number among the codewords that are one bit longer. -/
  first : Nat
  /-- Of a codeword: how many codewords are no longer than the bits so far. -/
  shorter : Nat
  deriving DecidableEq, Repr

/-- Nothing of a field has been taken in. -/
def FieldState.empty : FieldState :=
  ⟨0, 0, 0, 0⟩

/-- What a bit did to a field. -/
inductive Fed where
  /-- The field needs more bits. -/
  | more (state : FieldState)
  /-- The field is complete. -/
  | value (n : Nat)
  /-- The bits are no codeword. -/
  | invalid
  deriving DecidableEq, Repr

/-- A bit as a number. -/
def bitValue (b : Bool) : Nat :=
  if b then 1 else 0

/-- Takes in a bit of a number. -/
def feedNumber (order : BitOrder) (width : Nat) (s : FieldState) (b : Bool) : Fed :=
  let value := match order with
    | .lowFirst => s.value + bitValue b <<< s.length
    | .highFirst => 2 * s.value + bitValue b
  if s.length + 1 < width then .more { s with length := s.length + 1, value := value }
  else .value value

/-- Takes in a bit of a codeword. -/
def PrefixCode.feed (code : PrefixCode) (s : FieldState) (b : Bool) : Fed :=
  let count := code.counts[s.length]?.getD 0
  let opening := code.openings[s.length]?.getD 0
  let value := 2 * s.value + bitValue b
  let next := s.first + count
  if value < next then
    match code.symbols[s.shorter + (value - s.first)]? with
    | some symbol => .value symbol
    | none => .invalid
  else if value < next + opening || s.length + 1 < code.patience then
    .more ⟨s.length + 1, value, 2 * next, s.shorter + count⟩
  else .invalid

/-- Takes in a bit of a field. -/
def Field.feed (order : BitOrder) (field : Field) (s : FieldState) (b : Bool) : Fed :=
  match field with
  | .number width => feedNumber order width s b
  | .symbol code => code.feed s b

end Decompression
