import Decompression.BitMachine
import Decompression.Deflate.Adler
import Decompression.Deflate.Code
import Decompression.Deflate.Window

/-!
# The Deflate Machine

A compressed stream is a sequence of blocks: stored bytes, or literals and back
references under two codes. It may be wrapped in a two-byte header and a checksum.

The machine is a table of phases. Each phase names the field that comes next, and
says what its value leads to: another phase, and perhaps some output. Stored bytes
and the checksum begin at a whole byte, so some bits may be passed over before them.

Most fields are read with as few bytes as possible, but codewords are read ahead of, and
the more so the more input and room there is. Nothing but a stored block brings that to
light: a stored byte is taken in without room for it exactly if it has been read along
with the codewords before the block, and otherwise waits in the input.

Whatever is wrong with a stream is reported in the same way, as soon as the field is
complete that shows it.

## Main definitions

* `Error`: What can be wrong.
* `Phase`: Where in a stream the machine is.
* `Phase.field`: What comes next there.
* `Phase.receive`: What the value of that field leads to.
* `Owed`: Output that has been decoded and not written yet.
* `Pace`: How the symbols of a block are being read.
* `Engine`: The state of the machine.
* `Engine.isDone`: Whether the stream is over and everything has been written.
* `Engine.prepare`: How far is read ahead.
* `machine`: The machine, as one that takes in bits and owes output.
-/

namespace Decompression.Deflate

/-- What can be wrong. -/
inductive Error where
  /-- A stream that cannot be decoded. -/
  | corrupt
  deriving DecidableEq, Repr

/-- Output that has been decoded and not written yet. -/
inductive Owed where
  /-- None. -/
  | nothing
  /-- One byte. -/
  | literal (b : UInt8)
  /-- Some bytes from a distance back. -/
  | copy (length distance : Nat)
  deriving DecidableEq, Repr

/-- What a block with codes of its own says about them first. -/
structure CodeSizes where
  /-- How many codeword lengths are for literals and lengths. -/
  literals : Nat
  /-- How many are for distances. -/
  distances : Nat
  /-- How many are for the code in which those are written. -/
  lengths : Nat
  deriving DecidableEq, Repr

/-- The codeword lengths of a block's codes while they are read. -/
structure LengthTable where
  /-- How many there will be. -/
  sizes : CodeSizes
  /-- The code in which they are written. -/
  code : PrefixCode
  /-- Those read, the latest first. -/
  read : List Nat

/-- Where in a stream the machine is. -/
inductive Phase where
  /-- At the two bytes before a wrapped stream. -/
  | header
  /-- At the first bits of a block. -/
  | block
  /-- At the length of a stored block. -/
  | storedLength (last : Bool)
  /-- At the next of so many stored bytes. -/
  | stored (last : Bool) (left : Nat)
  /-- At the sizes of a block's codes. -/
  | codeSizes (last : Bool)
  /-- At a codeword length of the code for codeword lengths; those read, the latest first. -/
  | lengthCode (last : Bool) (sizes : CodeSizes) (read : List Nat)
  /-- At a codeword length. -/
  | codeword (last : Bool) (table : LengthTable)
  /-- At how often a codeword length is repeated. -/
  | repetition (last : Bool) (table : LengthTable) (length : Nat) (range : Range)
  /-- At a literal, a length, or the end of a block. -/
  | symbol (last : Bool) (codes : Codes)
  /-- At what is added to a length. -/
  | lengthBits (last : Bool) (codes : Codes) (range : Range)
  /-- At the distance of a back reference. -/
  | distance (last : Bool) (codes : Codes) (length : Nat)
  /-- At what is added to a distance. -/
  | distanceBits (last : Bool) (codes : Codes) (length : Nat) (range : Range)
  /-- At the checksum of a wrapped stream. -/
  | checksum
  /-- Past the end. -/
  | done

/-- What the value of a field leads to. -/
structure Move where
  /-- The next phase. -/
  phase : Phase
  /-- What is to be written. -/
  owed : Owed := .nothing
  /-- The next field begins at a whole byte. -/
  align : Bool := false

namespace Phase

/-- What comes next. -/
def field : Phase → Field
  | header => .number 16
  | block => .number 3
  | storedLength _ => .number 32
  | stored _ _ => .number 8
  | codeSizes _ => .number 14
  | lengthCode _ _ _ => .number 3
  | codeword _ table => .symbol table.code
  | repetition _ _ _ range => .number range.bits
  | symbol _ codes => .symbol codes.literals
  | lengthBits _ _ range => .number range.bits
  | distance _ codes _ => .symbol codes.distances
  | distanceBits _ _ _ range => .number range.bits
  | checksum => .number 32
  | done => .number 1

/-- The method, a window of at most 32768 bytes, no preset dictionary, and a check
    that makes the header a multiple of 31. -/
def headerIsValid (n : Nat) : Bool :=
  let method := n % 256
  let flags := n / 256
  (method * 256 + flags) % 31 == 0 && !flags.testBit 5 && method % 16 == 8 && method / 16 ≤ 7

/-- What follows a block. -/
def afterBlock (wrapped last : Bool) : Move :=
  if !last then { phase := block }
  else if wrapped then { phase := checksum, align := true }
  else { phase := done }

/-- What follows the first bits of a block. -/
def receiveBlock (n : Nat) : Except Error Move :=
  let last := n % 2 == 1
  match n / 2 with
  | 0 => .ok { phase := storedLength last, align := true }
  | 1 => .ok { phase := symbol last .fixed }
  | 2 => .ok { phase := codeSizes last }
  | _ => .error .corrupt

/-- What follows the length of a stored block, which comes with its complement. -/
def receiveStoredLength (wrapped last : Bool) (n : Nat) : Except Error Move :=
  let length := n % 65536
  if n / 65536 ≠ 65535 - length then .error .corrupt
  else if length = 0 then .ok (afterBlock wrapped last)
  else .ok { phase := stored last length }

/-- What follows a stored byte. -/
def receiveStored (wrapped last : Bool) (left n : Nat) : Move :=
  let owed := Owed.literal n.toUInt8
  if left ≤ 1 then { afterBlock wrapped last with owed := owed }
  else { phase := stored last (left - 1), owed := owed }

/-- What follows the sizes of a block's codes. -/
def receiveCodeSizes (last : Bool) (n : Nat) : Except Error Move :=
  let sizes : CodeSizes := ⟨n % 32 + 257, n / 32 % 32 + 1, n / 1024 + 4⟩
  if sizes.literals > 286 || sizes.distances > 30 then .error .corrupt
  else .ok { phase := lengthCode last sizes [] }

/-- What follows a codeword length of the code for codeword lengths. -/
def receiveLengthCode (last : Bool) (sizes : CodeSizes) (read : List Nat) (n : Nat) :
    Except Error Move :=
  let read := n :: read
  if read.length < sizes.lengths then .ok { phase := lengthCode last sizes read }
  else
    match lengthCode? read.reverse with
    | none => .error .corrupt
    | some code => .ok { phase := codeword last ⟨sizes, code, []⟩ }

/-- Takes in codeword lengths, and goes on to the block itself once there are enough. -/
def takeLengths (last : Bool) (table : LengthTable) (new : List Nat) : Except Error Move :=
  let read := new ++ table.read
  let total := table.sizes.literals + table.sizes.distances
  if read.length < total then .ok { phase := codeword last { table with read := read } }
  else if read.length > total then .error .corrupt
  else
    match Codes.ofLengths? table.sizes.literals read.reverse with
    | none => .error .corrupt
    | some codes => .ok { phase := symbol last codes }

/-- What follows a codeword length: a symbol past the longest asks for a repetition,
    of the length before or of zero. -/
def receiveCodeword (last : Bool) (table : LengthTable) (n : Nat) : Except Error Move :=
  match n with
  | 16 =>
    match table.read with
    | [] => .error .corrupt
    | length :: _ => .ok { phase := repetition last table length ⟨3, 2⟩ }
  | 17 => .ok { phase := repetition last table 0 ⟨3, 3⟩ }
  | 18 => .ok { phase := repetition last table 0 ⟨11, 7⟩ }
  | length => takeLengths last table [length]

/-- Goes on with a number of a range: at once if nothing is to be added to its least. -/
def withRange (range : Range) (more : Phase) (known : Nat → Move) : Move :=
  if range.bits = 0 then known range.base else { phase := more }

/-- A back reference is complete. -/
def reference (last : Bool) (codes : Codes) (length distance : Nat) : Move :=
  { phase := symbol last codes, owed := .copy length distance }

/-- What follows a literal, a length, or the end of a block. -/
def receiveSymbol (wrapped last : Bool) (codes : Codes) (n : Nat) : Except Error Move :=
  if n < endOfBlock then .ok { phase := symbol last codes, owed := .literal n.toUInt8 }
  else if n = endOfBlock then .ok (afterBlock wrapped last)
  else
    match lengthRange? n with
    | none => .error .corrupt
    | some range =>
      .ok (withRange range (lengthBits last codes range) fun length =>
        { phase := distance last codes length })

/-- What follows the distance of a back reference. -/
def receiveDistance (last : Bool) (codes : Codes) (length n : Nat) : Except Error Move :=
  match distanceRange? n with
  | none => .error .corrupt
  | some range =>
    .ok (withRange range (distanceBits last codes length range) (reference last codes length))

/-- The number whose four bytes come in the opposite order. -/
def swapBytes (n : Nat) : Nat :=
  n % 256 * 16777216 + n / 256 % 256 * 65536 + n / 65536 % 256 * 256 + n / 16777216

/-- What the value of the field at hand leads to. -/
def receive (wrapped : Bool) (check : Adler) (phase : Phase) (n : Nat) : Except Error Move :=
  match phase with
  | header => if headerIsValid n then .ok { phase := block } else .error .corrupt
  | block => receiveBlock n
  | storedLength last => receiveStoredLength wrapped last n
  | stored last left => .ok (receiveStored wrapped last left n)
  | codeSizes last => receiveCodeSizes last n
  | lengthCode last sizes read => receiveLengthCode last sizes read n
  | codeword last table => receiveCodeword last table n
  | repetition last table length range =>
    takeLengths last table (List.replicate (range.base + n) length)
  | symbol last codes => receiveSymbol wrapped last codes n
  | lengthBits last codes range => .ok { phase := distance last codes (range.base + n) }
  | distance last codes length => receiveDistance last codes length n
  | distanceBits last codes length range => .ok (reference last codes length (range.base + n))
  | checksum => if swapBytes n = check.value then .ok { phase := done } else .error .corrupt
  | done => .ok { phase := done }

/-- The stream is over. -/
def isDone : Phase → Bool
  | done => true
  | _ => false

end Phase

/-- How the symbols of a block are being read. -/
inductive Pace where
  /-- The pace has not been set yet. -/
  | unset
  /-- One by one. -/
  | single
  /-- Two at once, if the first is a literal: at the first. Further bytes are read within
      a back reference if that is swift. -/
  | first (swift : Bool)
  /-- Two at once: at the second. -/
  | second (swift : Bool)
  deriving DecidableEq, Repr

namespace Pace

/-- The pace after a literal. -/
def afterLiteral : Pace → Pace
  | first swift => second swift
  | _ => unset

/-- Further bytes are read within a back reference. -/
def isSwift : Pace → Bool
  | first swift | second swift => swift
  | _ => false

/-- The pace at which one phase leads to another. -/
def between (pace : Pace) (here next : Phase) : Pace :=
  match here, next with
  | .symbol _ _, .symbol _ _ => pace.afterLiteral
  | .symbol _ _, .lengthBits _ _ _ | .symbol _ _, .distance _ _ _ => pace
  | .lengthBits _ _ _, .distance _ _ _ => pace
  | .distance _ _ _, .distanceBits _ _ _ _ => pace
  | _, _ => unset

/-- Further bytes are read as one phase leads to another: after the symbol for a length,
    and after one for a distance to which something is added. -/
def topsUp (pace : Pace) (here next : Phase) : Bool :=
  match here, next with
  | .symbol _ _, .lengthBits _ _ _ | .symbol _ _, .distance _ _ _ => pace.isSwift
  | .distance _ _ _, .distanceBits _ _ _ _ => pace.isSwift
  | _, _ => false

end Pace

/-- The state of the machine. -/
structure Engine where
  /-- The stream has a header and a checksum. -/
  wrapped : Bool
  /-- Where in the stream the machine is. -/
  phase : Phase
  /-- What has been taken in of the next field. -/
  field : FieldState
  /-- How many bits are passed over before that. -/
  skip : Nat
  /-- How many bits of the current byte have been taken in, less than eight. -/
  position : Nat
  /-- How the symbols of the block are being read. -/
  pace : Pace
  /-- Further bytes are to be read before the next bit. -/
  topUp : Bool
  /-- What is to be written. -/
  owed : Owed
  /-- The last bytes decoded. -/
  window : Window
  /-- The checksum of everything decoded. -/
  check : Adler

namespace Engine

/-- The machine at the beginning of a stream. -/
def start (wrapped : Bool) : Engine :=
  ⟨wrapped, if wrapped then .header else .block, .empty, 0, 0, .unset, false, .nothing, .empty,
    .empty⟩

/-- The machine after a move, having taken in `position` bits of the current byte. -/
def moved (e : Engine) (position : Nat) (m : Move) : Engine :=
  { e with
    phase := m.phase
    field := .empty
    skip := if m.align then (8 - position) % 8 else 0
    position := position
    pace := e.pace.between e.phase m.phase
    topUp := e.pace.topsUp e.phase m.phase
    owed := m.owed }

/-- Takes in a bit. -/
def feed (e : Engine) (b : Bool) : Except Error Engine :=
  let position := (e.position + 1) % 8
  match e.skip with
  -- The bits before a whole byte mean nothing.
  | skip + 1 => .ok { e with skip := skip, position := position }
  | 0 =>
    match e.phase.field.feed .lowFirst e.field b with
    | .more field => .ok { e with field := field, position := position }
    | .invalid => .error .corrupt
    | .value n => (e.phase.receive e.wrapped e.check n).map (e.moved position)

/-- Writes a byte. -/
def emit (e : Engine) (b : UInt8) : Engine :=
  { e with window := e.window.push b, check := e.check.push b }

/-- Writes bytes from a distance back, before those in `written`. -/
def copyFrom (distance : Nat) : Nat → Engine → List UInt8 → Engine × List UInt8
  | 0, e, written => (e, written)
  | count + 1, e, written =>
    let b := e.window.back distance
    copyFrom distance count (e.emit b) (b :: written)

/-- The stream is over and everything has been written: the last stored byte may be owed
    still once nothing is left to read. -/
def isDone (e : Engine) : Bool :=
  e.phase.isDone && e.owed == .nothing

/-- What the machine is waiting for when it owes nothing. -/
def standing (e : Engine) : Standing :=
  if e.phase.isDone then .done else .hungry

/-- Writes what is owed into so much room. -/
def settle (e : Engine) (room : Nat) : Settled Error Engine :=
  match e.owed with
  | .nothing => ⟨e, [], .ok e.standing⟩
  | .literal b =>
    if room = 0 then ⟨e, [], .ok .blocked⟩
    else
      let e := { e with owed := .nothing }.emit b
      ⟨e, [b], .ok e.standing⟩
  | .copy length distance =>
    let (e, written) := copyFrom distance (min length room) { e with owed := .nothing } []
    if room < length then
      ⟨{ e with owed := .copy (length - room) distance }, written, .ok .blocked⟩
    else ⟨e, written, .ok e.standing⟩

/-- How many bits of the field at hand there are. -/
def bitsAtHand (e : Engine) (s : Supply) : Nat :=
  e.field.length + s.held.length

/-- Wants a bit, and for that a single byte if none has been read. -/
def nextBit (s : Supply) : Appetite :=
  if s.held.isEmpty then .bytes 1 else .bit

/-- Wants a codeword: two bytes where the longest one might not have been read. -/
def nextCodeword (e : Engine) (s : Supply) : Appetite :=
  -- Within a codeword this matters only once what has been read is used up.
  if (e.field.length == 0 || s.held.isEmpty) && 2 ≤ s.unread &&
      e.bitsAtHand s < longestCodeword then .bytes 2
  else nextBit s

/-- How many bits suffice for two codewords. -/
def twoCodewords : Nat :=
  2 * longestCodeword

/-- Wants four bytes where two of the longest codewords might not have been read. -/
def twoCodewordsAhead (e : Engine) (s : Supply) : Appetite :=
  if e.bitsAtHand s < twoCodewords then .bytes 4 else .bit

/-- So much room holds whatever two symbols stand for that are read at once. -/
def swiftRoom : Nat :=
  259

/-- So many bytes hold whatever is read for two symbols at once and what they stand for. -/
def swiftInput : Nat :=
  14

/-- Sets the pace at a symbol. -/
def approach (e : Engine) (s : Supply) : Engine × Appetite :=
  if s.unread < 4 || s.room < 2 then ({ e with pace := .single }, e.nextCodeword s)
  else
    let swift := swiftRoom ≤ s.room && swiftInput ≤ s.unread
    ({ e with pace := .first swift }, e.twoCodewordsAhead s)

/-- Wants a symbol. The pace is set anew when what has been read is used up within one. -/
def nextSymbol (e : Engine) (s : Supply) : Engine × Appetite :=
  match e.pace with
  | .unset => e.approach s
  | .single => if s.held.isEmpty then e.approach s else (e, .bit)
  | .first _ | .second _ => (e, .bit)

/-- Looks at what there is before the next bit. -/
def prepare (e : Engine) (s : Supply) : Engine × Appetite :=
  if e.topUp then ({ e with topUp := false }, e.twoCodewordsAhead s)
  else
    match e.phase with
    | .symbol _ _ => e.nextSymbol s
    | .codeword _ _ | .distance _ _ _ => (e, e.nextCodeword s)
    | .stored _ _ =>
      -- A stored byte that has not been read waits for a place.
      if s.room == 0 && e.field.length == 0 && s.held.isEmpty then (e, .room) else (e, nextBit s)
    | _ => (e, nextBit s)

end Engine

/-- The machine, as one that takes in bits and owes output. Unless it needs more input, it
    gives back the whole bytes that it read ahead. -/
def machine : BitMachine Error Engine where
  order := .lowFirst
  settle := Engine.settle
  prepare := Engine.prepare
  feed e _ := e.feed
  pause e := e
  returns standing := standing != .hungry

end Decompression.Deflate
