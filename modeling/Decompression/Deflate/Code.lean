import Decompression.Bits

/-!
# Codes of Compressed Blocks

A compressed block is a sequence of literals and back references. One prefix code is
for literals, the end of the block and the lengths of references, another for their
distances; a symbol for a length or a distance stands for a range, and further bits
say which number of the range is meant.

A block may use two fixed codes or bring its own. Its own come as codeword lengths,
written in a third code. A code is refused if its codewords do not exactly fill the
space of bit strings, but a code without a codeword, or with a single one of one bit, is
let through: it is of use to a block with no distance, or with only one.

## Main definitions

* `Range`: A least number and how many further bits are added to it.
* `lengthRange?`, `distanceRange?`: The range that a symbol stands for.
* `Codes`: The two codes of a block.
* `Codes.fixed`, `Codes.ofLengths?`: The fixed codes, and those of given lengths.
* `lengthCode?`: The code in which codeword lengths are written.
-/

namespace Decompression.Deflate

/-- A range of numbers: a least one, and how many bits are added to it. -/
structure Range where
  /-- The least number. -/
  base : Nat
  /-- The width of the number that is added. -/
  bits : Nat
  deriving DecidableEq, Repr

/-- The ranges of the symbols for lengths, from 257 on. -/
def lengthRanges : Array Range :=
  #[⟨3, 0⟩, ⟨4, 0⟩, ⟨5, 0⟩, ⟨6, 0⟩, ⟨7, 0⟩, ⟨8, 0⟩, ⟨9, 0⟩, ⟨10, 0⟩,
    ⟨11, 1⟩, ⟨13, 1⟩, ⟨15, 1⟩, ⟨17, 1⟩, ⟨19, 2⟩, ⟨23, 2⟩, ⟨27, 2⟩, ⟨31, 2⟩,
    ⟨35, 3⟩, ⟨43, 3⟩, ⟨51, 3⟩, ⟨59, 3⟩, ⟨67, 4⟩, ⟨83, 4⟩, ⟨99, 4⟩, ⟨115, 4⟩,
    ⟨131, 5⟩, ⟨163, 5⟩, ⟨195, 5⟩, ⟨227, 5⟩, ⟨258, 0⟩]

/-- The ranges of the symbols for distances. -/
def distanceRanges : Array Range :=
  #[⟨1, 0⟩, ⟨2, 0⟩, ⟨3, 0⟩, ⟨4, 0⟩, ⟨5, 1⟩, ⟨7, 1⟩, ⟨9, 2⟩, ⟨13, 2⟩, ⟨17, 3⟩, ⟨25, 3⟩,
    ⟨33, 4⟩, ⟨49, 4⟩, ⟨65, 5⟩, ⟨97, 5⟩, ⟨129, 6⟩, ⟨193, 6⟩, ⟨257, 7⟩, ⟨385, 7⟩,
    ⟨513, 8⟩, ⟨769, 8⟩, ⟨1025, 9⟩, ⟨1537, 9⟩, ⟨2049, 10⟩, ⟨3073, 10⟩, ⟨4097, 11⟩,
    ⟨6145, 11⟩, ⟨8193, 12⟩, ⟨12289, 12⟩, ⟨16385, 13⟩, ⟨24577, 13⟩]

/-- The symbol that ends a block. -/
def endOfBlock : Nat :=
  256

/-- The range of lengths that a symbol past the end of a block stands for. -/
def lengthRange? (symbol : Nat) : Option Range :=
  lengthRanges[symbol - (endOfBlock + 1)]?

/-- The range of distances that a symbol stands for. -/
def distanceRange? (symbol : Nat) : Option Range :=
  distanceRanges[symbol]?

/-- The two codes of a block. -/
structure Codes where
  /-- For literals, the end of the block, and lengths. -/
  literals : PrefixCode
  /-- For distances. -/
  distances : PrefixCode

/-- The longest codeword of a block's codes. -/
def longestCodeword : Nat :=
  15

/-- There is no codeword, or a single one of one bit. -/
def isMeagre (lengths : List Nat) : Bool :=
  lengths.foldr (· + ·) 0 ≤ 1

/-- The code with given codeword lengths, if the codewords fill the space of bit
    strings, or there is next to nothing to code. -/
def blockCode? (lengths : List Nat) : Option PrefixCode :=
  if PrefixCode.isComplete longestCodeword lengths || isMeagre lengths then
    some (.ofLengths longestCodeword 0 lengths)
  else none

namespace Codes

/-- The codeword lengths of the fixed code for literals and lengths. -/
def fixedLiteralLengths : List Nat :=
  List.replicate 144 8 ++ List.replicate 112 9 ++ List.replicate 24 7 ++ List.replicate 8 8

/-- The codeword lengths of the fixed code for distances. -/
def fixedDistanceLengths : List Nat :=
  List.replicate 32 5

/-- The codes of a block that does not bring its own. -/
def fixed : Codes :=
  ⟨.ofLengths longestCodeword 0 fixedLiteralLengths,
    .ofLengths longestCodeword 0 fixedDistanceLengths⟩

/-- The codes of a block that brings its own, from all their codeword lengths: first
    `literals` of them for literals and lengths, then those for distances. -/
def ofLengths? (literals : Nat) (lengths : List Nat) : Option Codes :=
  match blockCode? (lengths.take literals), blockCode? (lengths.drop literals) with
  | some forLiterals, some forDistances => some ⟨forLiterals, forDistances⟩
  | _, _ => none

end Codes

/-- The order in which the codeword lengths of the third code are written. -/
def lengthOrder : List Nat :=
  [16, 17, 18, 0, 8, 7, 9, 6, 10, 5, 11, 4, 12, 3, 13, 2, 14, 1, 15]

/-- The longest codeword of the third code. -/
def longestLengthCodeword : Nat :=
  7

/-- The code in which codeword lengths are written, from its own codeword lengths in
    the order in which they come. Its codewords have to fill the space of bit strings. -/
def lengthCode? (written : List Nat) : Option PrefixCode :=
  let pairs := lengthOrder.zip written
  let lengths := (List.range lengthOrder.length).map fun symbol => (pairs.lookup symbol).getD 0
  if PrefixCode.isComplete longestLengthCodeword lengths then
    some (.ofLengths longestLengthCodeword 0 lengths)
  else none

end Decompression.Deflate
