import Decompression.BitMachine
import Decompression.Bzip2.Unroller

/-!
# The Bzip2 Machine

A stream is a signature, blocks, and a trailer with the check of the whole. A block
says which byte values it uses, brings up to six prefix codes and a list that selects
one of them for every fifty symbols, and then gives its content: move-to-front ranks,
with runs of the front value written as numbers to the base of two with the digits one
and two.

The machine is a table of phases. A whole block is read before any of it is written,
and the machine owes the block until it has been written completely.

Codeword lengths are written as changes, and nothing limits how often a length may go up
and down again. Where there is enough input for codes without such detours, no place in
them is kept: if the input breaks off there after all, what comes next is taken for one
more selector, and the codes are read from their beginning. So a stream with long detours
may be readable only if it is not cut within its codes.

Whatever is wrong is reported as soon as the bit is read that shows it.

## Main definitions

* `Error`: What can be wrong.
* `Header`, `Outline`, `Tables`, `Content`: What is known of a block as it is read.
* `Phase`: Where in a stream the machine is.
* `Phase.field`: What comes next there.
* `Engine`: The state of the machine.
* `Engine.receive`: What the value of a field leads to.
* `Engine.prepare`: How far is read ahead.
* `Engine.pause`: Where the machine goes on when the input breaks off.
* `machine`: The machine, as one that takes in bits and owes output.
-/

namespace Decompression.Bzip2

/-- What can be wrong. -/
inductive Error where
  /-- The stream is over already. -/
  | sequence
  /-- A stream that cannot be decoded. -/
  | data
  /-- Something that is not a stream. -/
  | dataMagic
  /-- A choice that is not offered. -/
  | param
  /-- Anything else. -/
  | other (text : String)
  deriving DecidableEq, Repr

/-- How a block begins. -/
structure Header where
  /-- The check of the block's bytes. -/
  checksum : UInt32
  /-- The block has been randomised. -/
  randomised : Bool
  /-- The place in the sorted column from which the block is read. -/
  origin : Nat
  deriving DecidableEq, Repr

/-- How a block is coded. -/
structure Outline extends Header where
  /-- The byte values in use, in ascending order. -/
  used : List UInt8
  /-- How many codes there are. -/
  groups : Nat
  deriving DecidableEq, Repr

namespace Outline

/-- The symbol that ends the block: the last one. -/
def endSymbol (o : Outline) : Nat :=
  o.used.length + 1

/-- How many symbols there are: two digits of a run, the ranks from one on, and the end. -/
def symbols (o : Outline) : Nat :=
  o.used.length + 2

end Outline

/-- The codes of a block while they are read. -/
structure Tables where
  /-- How the block is coded. -/
  outline : Outline
  /-- Which code is for which fifty symbols. -/
  selectors : List Nat
  /-- The codes read, the latest first. -/
  codes : List PrefixCode
  /-- The codeword lengths read of the code at hand, the latest first. -/
  lengths : List Nat
  /-- If no place is kept in the codes: the rank of the selector read last. -/
  fallback : Option Nat

/-- The content of a block while it is read. -/
structure Content where
  /-- How the block is coded. -/
  outline : Outline
  /-- The codes. -/
  codes : Array PrefixCode
  /-- Which codes are for the symbols after the current fifty. -/
  selectors : List Nat
  /-- The code of the current fifty symbols. -/
  code : PrefixCode
  /-- How many symbols are left of the current fifty. -/
  left : Nat
  /-- The byte values in use, the most recent first. -/
  recent : List UInt8
  /-- The length of the run at hand, as far as its digits are known. -/
  run : Nat
  /-- The weight of the next digit of a run. -/
  weight : Nat
  /-- The sorted column so far. -/
  column : Array UInt8

/-- Where in a stream the machine is. -/
inductive Phase where
  /-- At the signature, of which these bytes are left. -/
  | signature (left : List UInt8)
  /-- At the digit that says how large a block may be. -/
  | level
  /-- At the first byte of a block or of the trailer. -/
  | blockOrTrailer
  /-- At the mark of a block, of which these bytes are left. -/
  | blockMark (left : List UInt8)
  /-- At the mark of the trailer, of which these bytes are left. -/
  | trailerMark (left : List UInt8)
  /-- At the check of a block. -/
  | checksum
  /-- At whether a block is randomised. -/
  | randomised (checksum : UInt32)
  /-- At the origin of a block. -/
  | origin (checksum : UInt32) (randomised : Bool)
  /-- At which sixteens of byte values are in use. -/
  | usedRows (header : Header)
  /-- At which values of the first of these sixteens are in use; those before, the latest first. -/
  | usedValues (header : Header) (rows : List Nat) (used : List UInt8)
  /-- At the number of codes. -/
  | groupCount (header : Header) (used : List UInt8)
  /-- At the number of selectors. -/
  | selectorCount (outline : Outline)
  /-- At a bit of a selector, after `rank` ones; those before, the latest first. -/
  | selector (outline : Outline) (left rank : Nat) (recent read : List Nat)
  /-- At a bit of a selector past the last, after `rank` ones. -/
  | spareSelector (outline : Outline) (selectors : List Nat) (rank : Nat)
  /-- At the length from which a code's codeword lengths start. -/
  | firstLength (tables : Tables)
  /-- At whether a codeword length is right as it is. -/
  | lengthFits (tables : Tables) (length : Nat)
  /-- At whether a codeword length is longer or shorter. -/
  | lengthChange (tables : Tables) (length : Nat)
  /-- At a symbol of a block's content. -/
  | symbol (content : Content)
  /-- Writing a block. -/
  | writing (checksum : UInt32) (unroller : Unroller)
  /-- At the check of the stream. -/
  | streamChecksum
  /-- Past the end. -/
  | done

namespace Phase

/-- What comes next. -/
def field : Phase → Field
  | signature _ | level | blockOrTrailer | blockMark _ | trailerMark _ => .number 8
  | checksum | streamChecksum => .number 32
  | randomised _ | selector _ _ _ _ _ | spareSelector _ _ _ => .number 1
  | lengthFits _ _ | lengthChange _ _ => .number 1
  | origin _ _ => .number 24
  | usedRows _ | usedValues _ _ _ => .number 16
  | groupCount _ _ => .number 3
  | selectorCount _ => .number 15
  | firstLength _ => .number 5
  | symbol content => .symbol content.code
  | writing _ _ | done => .number 1

/-- How many bits of it are asked for at once. -/
def unit : Phase → Nat
  | usedRows _ | usedValues _ _ _ | randomised _ => 1
  | selector _ _ _ _ _ | spareSelector _ _ _ | lengthFits _ _ | lengthChange _ _ => 1
  | groupCount _ _ => 3
  | firstLength _ => 5
  | selectorCount _ => 15
  | _ => 8

/-- How many bits are asked for after so many have been taken in: the rest of a unit or,
    of a codeword, first those that every codeword has and then one at a time. -/
def need (phase : Phase) (taken : Nat) : Nat :=
  match phase with
  | symbol content =>
    let shortest := content.code.shortest
    if taken < shortest then shortest - taken else 1
  | phase => phase.unit - taken % phase.unit

/-- The codes that are being read. -/
def tables? : Phase → Option Tables
  | firstLength tables | lengthFits tables _ | lengthChange tables _ => some tables
  | _ => none

/-- The stream is over. -/
def isDone : Phase → Bool
  | done => true
  | _ => false

end Phase

/-- How many bytes a block may hold for each step of the level. -/
def blockUnit : Nat :=
  100000

/-- The mark of a block: six digits of the circle's ratio. -/
def blockMark : List UInt8 :=
  [0x31, 0x41, 0x59, 0x26, 0x53, 0x59]

/-- The mark of the trailer: six digits of the ratio's square root. -/
def trailerMark : List UInt8 :=
  [0x17, 0x72, 0x45, 0x38, 0x50, 0x90]

/-- Takes in a byte that has to be the next of a mark. -/
def expect (left : List UInt8) (n : Nat) (error : Error) (more : List UInt8 → Phase)
    (after : Phase) : Except Error Phase :=
  match left with
  | [] => .error error
  | b :: rest =>
    if n ≠ b.toNat then .error error
    else if rest.isEmpty then .ok after
    else .ok (more rest)

/-- What follows the first byte of a block or of the trailer. -/
def receiveMark (n : Nat) : Except Error Phase :=
  if n = 0x17 then .ok (.trailerMark trailerMark.tail)
  else if n = 0x31 then .ok (.blockMark blockMark.tail)
  else .error .data

/-- Which of sixteen things a number marks, its bit of greatest value standing for the first. -/
def marked (n : Nat) : List Nat :=
  (List.range 16).filter fun i => n.testBit (15 - i)

/-- Goes on with the next sixteen byte values, or with what follows them. -/
def readRows (header : Header) (rows : List Nat) (used : List UInt8) : Except Error Phase :=
  match rows with
  | _ :: _ => .ok (.usedValues header rows used)
  | [] => if used.isEmpty then .error .data else .ok (.groupCount header used.reverse)

/-- What follows the values in use of one sixteen. -/
def receiveValues (header : Header) (rows : List Nat) (used : List UInt8) (n : Nat) :
    Except Error Phase :=
  match rows with
  | [] => .error .data
  | row :: rows =>
    let new := (marked n).map fun i => (16 * row + i).toUInt8
    readRows header rows (new.reverse ++ used)

/-- What follows the number of codes. -/
def receiveGroupCount (header : Header) (used : List UInt8) (n : Nat) : Except Error Phase :=
  if n < 2 || 6 < n then .error .data else .ok (.selectorCount ⟨header, used, n⟩)

/-- How many selectors can be of use to a block. -/
def selectorLimit : Nat :=
  18002

/-- What follows the number of selectors. -/
def receiveSelectorCount (outline : Outline) (n : Nat) : Except Error Phase :=
  if n = 0 then .error .data
  else .ok (.selector outline n 0 (List.range outline.groups) [])

/-- Moves the value of a given rank to the front. -/
def moveToFront {α : Type} (recent : List α) (rank : Nat) : List α :=
  match recent[rank]? with
  | none => recent
  | some a => a :: recent.eraseIdx rank

/-- How many bytes suffice for the codes of a block whose codeword lengths are reached from
    one another without detours. -/
def codesBound (outline : Outline) : Nat :=
  (outline.groups * (5 + outline.symbols * 40) + 7) / 8

/-- Goes on with the codes, after a selector of that rank. A place is kept in them only
    where `unread` bytes might not be enough. -/
def beginCodes (outline : Outline) (selectors : List Nat) (rank unread : Nat) : Phase :=
  let fallback := if codesBound outline ≤ unread then some rank else none
  .firstLength ⟨outline, selectors, [], [], fallback⟩

/-- What follows a bit of a selector. Selectors are move-to-front ranks, each written as
    so many ones before a zero. -/
def receiveSelector (outline : Outline) (left rank : Nat) (recent read : List Nat)
    (unread n : Nat) : Except Error Phase :=
  if n = 1 then
    if outline.groups ≤ rank + 1 then .error .data
    else .ok (.selector outline left (rank + 1) recent read)
  else
    let recent := moveToFront recent rank
    let read := recent.headD 0 :: read
    -- Selectors past the limit have to be read, but no block can use them.
    if left ≤ 1 then .ok (beginCodes outline (read.reverse.take selectorLimit) rank unread)
    else .ok (.selector outline (left - 1) 0 recent read)

/-- What follows a bit of a selector past the last. It selects nothing. -/
def receiveSpareSelector (outline : Outline) (selectors : List Nat) (rank unread n : Nat) :
    Except Error Phase :=
  if n = 1 then
    if outline.groups ≤ rank + 1 then .error .data
    else .ok (.spareSelector outline selectors (rank + 1))
  else .ok (beginCodes outline selectors rank unread)

/-- A codeword length as it is being found has to be possible at any time. -/
def readLength (tables : Tables) (length : Nat) : Except Error Phase :=
  if length < 1 || 20 < length then .error .data else .ok (.lengthFits tables length)

/-- How many symbols share a code before the next selector is used. -/
def groupSize : Nat :=
  50

namespace Content

/-- Goes on with the next symbol, under the next selector if fifty have been read. -/
def next (c : Content) : Except Error Phase :=
  if 0 < c.left then .ok (.symbol c)
  else
    match c with
    | ⟨_, _, [], _, _, _, _, _, _⟩ => .error .data
    | ⟨outline, codes, selector :: selectors, code, _, recent, run, weight, column⟩ =>
      let code := codes.getD selector code
      .ok (.symbol ⟨outline, codes, selectors, code, groupSize, recent, run, weight, column⟩)

/-- The content of a block at its beginning. -/
def ofTables (tables : Tables) : Except Error Phase :=
  let codes := tables.codes.reverse.toArray
  next ⟨tables.outline, codes, tables.selectors, codes.getD 0 ⟨#[], #[], #[], 0⟩, 0,
    tables.outline.used, 0, 1, #[]⟩

/-- The most digits of a run have this weight. -/
def weightLimit : Nat :=
  1 <<< 21

/-- Takes in a digit of a run. -/
def receiveDigit (c : Content) (digit : Nat) : Except Error Phase :=
  if weightLimit ≤ c.weight then .error .data
  else next { c with run := c.run + (digit + 1) * c.weight, weight := 2 * c.weight }

/-- Adds so many copies of a byte to a column. -/
def pushCopies (b : UInt8) : Nat → Array UInt8 → Array UInt8
  | 0, column => column
  | count + 1, column => pushCopies b count (column.push b)

/-- Adds the run at hand to the column, if it fits. -/
def endRun (capacity : Nat) (c : Content) : Except Error Content :=
  match c with
  | ⟨outline, codes, selectors, code, left, recent, run, _, column⟩ =>
    if run = 0 then .ok ⟨outline, codes, selectors, code, left, recent, 0, 1, column⟩
    else if capacity < column.size + run then .error .data
    else
      let column := pushCopies (recent.headD 0) run column
      .ok ⟨outline, codes, selectors, code, left, recent, 0, 1, column⟩

/-- Takes in a rank other than zero. -/
def receiveRank (capacity rank : Nat) (c : Content) : Except Error Phase :=
  match c with
  | ⟨outline, codes, selectors, code, left, recent, run, weight, column⟩ =>
    if capacity ≤ column.size then .error .data
    else
      let recent := moveToFront recent rank
      let column := column.push (recent.headD 0)
      next ⟨outline, codes, selectors, code, left, recent, run, weight, column⟩

/-- Ends the content: the block is complete, and its origin has to be within it. -/
def close (bytewise : Bool) (c : Content) : Except Error Phase :=
  if c.column.size ≤ c.outline.origin then .error .data
  else
    .ok (.writing c.outline.checksum
      (.ofColumn bytewise c.outline.randomised c.column c.outline.origin))

/-- Takes in a symbol. -/
def receive (bytewise : Bool) (capacity : Nat) (c : Content) (n : Nat) : Except Error Phase :=
  let c := { c with left := c.left - 1 }
  if n ≤ 1 then c.receiveDigit n
  else
    -- A run is as long as its digits say once a symbol comes that is no digit.
    match c.endRun capacity with
    | .error error => .error error
    | .ok c =>
      if n = c.outline.endSymbol then c.close bytewise else c.receiveRank capacity (n - 1)

end Content

/-- The longest codeword. -/
def longestCodeword : Nat :=
  20

/-- Takes in a codeword length that is right as it is. -/
def takeLength (tables : Tables) (length : Nat) : Except Error Phase :=
  let lengths := length :: tables.lengths
  if lengths.length < tables.outline.symbols then
    readLength { tables with lengths := lengths } length
  else
    let code := PrefixCode.ofLengths longestCodeword (longestCodeword + 1) lengths.reverse
    let tables := { tables with codes := code :: tables.codes, lengths := [] }
    if tables.codes.length < tables.outline.groups then .ok (.firstLength tables)
    else Content.ofTables tables

/-- The state of the machine. -/
structure Engine where
  /-- Blocks are written byte by byte. -/
  bytewise : Bool
  /-- How many bytes a block may hold. -/
  capacity : Nat
  /-- The check of the blocks so far. -/
  combined : UInt32
  /-- Where in the stream the machine is. -/
  phase : Phase
  /-- What has been taken in of the next field. -/
  field : FieldState

namespace Engine

/-- The machine at the beginning of a stream. -/
def start (bytewise : Bool) : Engine :=
  ⟨bytewise, 0, 0, .signature [0x42, 0x5a, 0x68], .empty⟩

/-- What the value of the field at hand leads to, while so many bytes have not been read. -/
def receive (bytewise : Bool) (capacity : Nat) (combined : UInt32) (phase : Phase)
    (unread n : Nat) : Except Error Phase :=
  match phase with
  | .signature left => expect left n .dataMagic .signature .level
  | .level => .error .dataMagic
  | .blockOrTrailer => receiveMark n
  | .blockMark left => expect left n .data .blockMark .checksum
  | .trailerMark left => expect left n .data .trailerMark .streamChecksum
  | .checksum => .ok (.randomised n.toUInt32)
  | .randomised checksum => .ok (.origin checksum (n == 1))
  | .origin checksum randomised =>
    if 10 + capacity < n then .error .data else .ok (.usedRows ⟨checksum, randomised, n⟩)
  | .usedRows header => readRows header (marked n) []
  | .usedValues header rows used => receiveValues header rows used n
  | .groupCount header used => receiveGroupCount header used n
  | .selectorCount outline => receiveSelectorCount outline n
  | .selector outline left rank recent read =>
    receiveSelector outline left rank recent read unread n
  | .spareSelector outline selectors rank => receiveSpareSelector outline selectors rank unread n
  | .firstLength tables => readLength tables n
  | .lengthFits tables length =>
    if n = 0 then takeLength tables length else .ok (.lengthChange tables length)
  | .lengthChange tables length =>
    readLength tables (if n = 0 then length + 1 else length - 1)
  | .symbol content => content.receive bytewise capacity n
  | .streamChecksum => if n.toUInt32 = combined then .ok .done else .error .data
  | .writing checksum unroller => .ok (.writing checksum unroller)
  | .done => .ok .done

/-- Takes in the digit that says how large a block may be. -/
def receiveLevel (bytewise : Bool) (n : Nat) : Except Error Engine :=
  if n < 0x31 || 0x39 < n then .error .dataMagic
  else .ok ⟨bytewise, blockUnit * (n - 0x30), 0, .blockOrTrailer, .empty⟩

/-- Takes in the value of a field, while so many bytes have not been read. -/
def advance (e : Engine) (unread n : Nat) : Except Error Engine :=
  match e with
  | ⟨bytewise, _, _, .level, _⟩ => receiveLevel bytewise n
  | ⟨bytewise, capacity, combined, phase, _⟩ =>
    match receive bytewise capacity combined phase unread n with
    | .error error => .error error
    | .ok phase => .ok ⟨bytewise, capacity, combined, phase, .empty⟩

/-- Takes in a bit, while so many bytes have not been read. -/
def feed (e : Engine) (unread : Nat) (b : Bool) : Except Error Engine :=
  match e.phase.field.feed .highFirst e.field b with
  | .more field => .ok { e with field := field }
  | .invalid => .error .data
  | .value n => e.advance unread n

/-- What the machine is waiting for when it owes nothing. -/
def standing (e : Engine) : Standing :=
  if e.phase.isDone then .done else .hungry

/-- Writes what is owed of a block into so much room. A block that is complete has to
    have the check that was announced. -/
def settle (e : Engine) (room : Nat) : Settled Error Engine :=
  match e with
  | ⟨bytewise, capacity, combined, .writing checksum unroller, field⟩ =>
    match unroller.drain room [] with
    | (.blocked unroller, written) =>
      ⟨⟨bytewise, capacity, combined, .writing checksum unroller, field⟩, written, .ok .blocked⟩
    | (.corrupt, written) =>
      ⟨⟨bytewise, capacity, combined, .blockOrTrailer, field⟩, written, .error .data⟩
    | (.finished check, written) =>
      let combined := combine combined check.value
      let e : Engine := ⟨bytewise, capacity, combined, .blockOrTrailer, field⟩
      if check.value = checksum then ⟨e, written, .ok .hungry⟩ else ⟨e, written, .error .data⟩
  | ⟨bytewise, capacity, combined, phase, field⟩ =>
    let e : Engine := ⟨bytewise, capacity, combined, phase, field⟩
    ⟨e, [], .ok e.standing⟩

/-- How many bits can be read and held back. -/
def bufferBits : Nat :=
  63

/-- Wants what is asked for at once: where there are eight or more bytes as many as can be
    held back, and otherwise one. -/
def prepare (e : Engine) (s : Supply) : Engine × Appetite :=
  if (s.held.drop (e.phase.need e.field.length - 1)).isEmpty then
    (e, .bytes (if 8 ≤ s.unread then (bufferBits - s.held.length) / 8 else 1))
  else (e, .bit)

/-- Goes back to before the codes, where no place in them has been kept. -/
def pause (e : Engine) : Engine :=
  match e.phase.tables? with
  | some ⟨outline, selectors, _, _, some rank⟩ =>
    { e with phase := .spareSelector outline selectors rank, field := .empty }
  | _ => e

end Engine

/-- The machine, as one that takes in bits and owes output. It gives back the whole bytes
    that it read ahead once it is over. -/
def machine : BitMachine Error Engine where
  order := .highFirst
  settle := Engine.settle
  prepare := Engine.prepare
  feed := Engine.feed
  pause := Engine.pause
  returns standing := standing == .done

end Decompression.Bzip2
