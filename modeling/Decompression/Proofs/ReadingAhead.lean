import Decompression.Deflate.Session
import Decompression.Proofs.MachinePaths

/-!
# How Far Deflate Reads Ahead

Symbols are read ahead of, and at a swift pace further bytes are read within a back reference
without asking whether there are any. What keeps this from leaving bits behind when there is no
more input, or from stopping with room left, is the pace. It is swift only if there are fourteen
bytes and room for 259 when it is set, and that lasts until it is set anew: two symbols, with what
belongs to the second, take up no more than 63 bits, and one byte at most is owed before they have
been read.

So a machine that has stopped counts on nothing. Either its stream is over, or it has filled its
room, or it has taken in every bit and written every byte.

## Main definitions

* `PrefixCode.Within`: A bound on the length of codewords.
* `Phase.Bounded`: The codes and the ranges of a block are as they come in a stream.
* `Phase.spent`, `Pace.due`: What a swift pace has used up, and what it keeps.
* `Phase.Leads`: What is known of where a value leads to.
* `Engine.Writes`, `Engine.Looks`: What the machine can write, and what it can look for.
* `Engine.Supplied`: There is as much as there was said to be.
* `Engine.Rested`: The machine counts on nothing.
* `Engine.Starved`: Nothing is left for it.

## Theorems

* `Phase.leads_of_receive`: Whatever the value of a field leads to is as it should be.
* `Engine.writes_settle`, `Engine.looks_prepare`: The machine writes and looks like this.
* `Engine.keeps_supplied`: The machine is supplied as it should be throughout a run.
* `Engine.Supplied.rests`: How it stops then.
* `Engine.rested_of_run`: A run exhausts the room or the input.
* `Engine.run_of_starved`: Nothing is written without further input.
-/

namespace Decompression

/-! ## The length of codewords -/

-- No bit string that is as long as the longest codeword begins a longer one.
theorem PrefixCode.openingsOf_of_le {counts : List Nat} {i : Nat} (h : counts.length ≤ i + 1) :
    (openingsOf counts)[i]?.getD 0 = 0 := by
  induction counts generalizing i with
  | nil => rfl
  | cons count counts ih =>
      unfold openingsOf
      split
      next next later opening openings hopenings =>
        rw [List.length_cons, List.length_cons] at h
        rcases i with _ | i
        · omega
        · rw [List.getElem?_cons_succ, ← hopenings]
          exact ih (Nat.le_of_succ_le_succ h)
      next =>
        rcases i with _ | i
        · rfl
        · rw [List.getElem?_cons_succ]
          exact ih (Nat.le_of_succ_le_succ h)

/-- A codeword of the code has so many bits at most, and no more are read of what is none. -/
structure PrefixCode.Within (code : PrefixCode) (longest : Nat) : Prop where
  patience : code.patience ≤ longest
  openings : ∀ i, longest ≤ i + 1 → code.openings[i]?.getD 0 = 0

theorem PrefixCode.ofLengths_within {longest patience : Nat} (h : patience ≤ longest)
    (lengths : List Nat) : (ofLengths longest patience lengths).Within longest where
  patience := h
  openings := by
    intro i hi
    rw [ofLengths, List.getElem?_toArray]
    apply openingsOf_of_le
    rw [List.length_map, List.length_map, List.length_range]
    exact hi

theorem PrefixCode.Within.feed {code : PrefixCode} {longest : Nat} (h : code.Within longest)
    {s s' : FieldState} {b : Bool} (hfeed : code.feed s b = .more s') :
    s'.length = s.length + 1 ∧ s'.length < longest := by
  unfold PrefixCode.feed at hfeed
  dsimp only at hfeed
  split at hfeed
  · split at hfeed <;> cases hfeed
  next hlater =>
    split at hfeed
    next hmore =>
      cases hfeed
      refine ⟨rfl, Nat.lt_of_not_le fun hle => ?_⟩
      dsimp only at hle
      have hpatience := h.patience
      rw [h.openings s.length hle] at hmore
      simp only [Bool.or_eq_true, decide_eq_true_iff] at hmore
      omega
    next => cases hfeed

theorem feedNumber_more {order : BitOrder} {width : Nat} {s s' : FieldState} {b : Bool}
    (h : feedNumber order width s b = .more s') : s'.length = s.length + 1 ∧ s'.length < width := by
  unfold feedNumber at h
  dsimp only at h
  split at h
  next hmore =>
    cases h
    exact ⟨rfl, hmore⟩
  next => cases h

namespace Deflate

/-! ## What is known of the symbols of a block -/

/-- How many bytes are owed. -/
def Owed.length : Owed → Nat
  | nothing => 0
  | literal _ => 1
  | copy length _ => length

/-- Both codes have codewords of fifteen bits at most. -/
structure Codes.Bounded (codes : Codes) : Prop where
  literals : codes.literals.Within longestCodeword
  distances : codes.distances.Within longestCodeword

theorem Codes.fixed_bounded : Codes.fixed.Bounded :=
  ⟨PrefixCode.ofLengths_within (Nat.zero_le _) _, PrefixCode.ofLengths_within (Nat.zero_le _) _⟩

theorem blockCode_within {lengths : List Nat} {code : PrefixCode}
    (h : blockCode? lengths = some code) : code.Within longestCodeword := by
  rw [blockCode?] at h
  split at h <;> cases h
  exact PrefixCode.ofLengths_within (Nat.zero_le _) _

theorem Codes.ofLengths_bounded {literals : Nat} {lengths : List Nat} {codes : Codes}
    (h : Codes.ofLengths? literals lengths = some codes) : codes.Bounded := by
  rw [Codes.ofLengths?] at h
  split at h
  next hliterals hdistances =>
    cases h
    exact ⟨blockCode_within hliterals, blockCode_within hdistances⟩
  next => cases h

theorem lengthRange_bits {symbol : Nat} {range : Range} (h : lengthRange? symbol = some range) :
    range.bits ≤ 5 := by
  have hall : ∀ range ∈ lengthRanges, range.bits ≤ 5 := by decide
  exact hall range (Array.mem_of_getElem? h)

theorem distanceRange_bits {symbol : Nat} {range : Range} (h : distanceRange? symbol = some range) :
    range.bits ≤ 13 := by
  have hall : ∀ range ∈ distanceRanges, range.bits ≤ 13 := by decide
  exact hall range (Array.mem_of_getElem? h)

namespace Phase

/-- At a symbol of a block, or at what belongs to it. -/
def isCoded : Phase → Bool
  | symbol _ _ | lengthBits _ _ _ | distance _ _ _ | distanceBits _ _ _ _ => true
  | _ => false

/-- How many bits there are at most to what comes next there. -/
def longest : Phase → Nat
  | lengthBits _ _ _ => 5
  | distanceBits _ _ _ _ => 13
  | _ => longestCodeword

/-- The codes and the ranges there are as they come in a stream. -/
def Bounded : Phase → Prop
  | symbol _ codes | distance _ codes _ => codes.Bounded
  | lengthBits _ codes range => codes.Bounded ∧ range.bits ≤ 5
  | distanceBits _ codes _ range => codes.Bounded ∧ range.bits ≤ 13
  | _ => True

theorem bounded_of_uncoded {phase : Phase} (h : phase.isCoded = false) : phase.Bounded := by
  cases phase with
  | symbol | lengthBits | distance | distanceBits => cases h
  | _ => trivial

theorem uncoded_of_isDone {phase : Phase} (h : phase.isDone = true) : phase.isCoded = false := by
  cases phase with
  | done => rfl
  | _ => cases h

/-- What is read of a field is shorter than the field can be. -/
theorem length_of_more {phase : Phase} (hcoded : phase.isCoded = true) (h : phase.Bounded)
    {s s' : FieldState} {b : Bool} (hfeed : phase.field.feed .lowFirst s b = .more s') :
    s'.length = s.length + 1 ∧ s'.length < phase.longest := by
  cases phase with
  | symbol last codes => exact h.literals.feed hfeed
  | distance last codes length => exact h.distances.feed hfeed
  | lengthBits last codes range =>
      change feedNumber .lowFirst range.bits s b = _ at hfeed
      have hmore := feedNumber_more hfeed
      exact ⟨hmore.1, Nat.lt_of_lt_of_le hmore.2 h.2⟩
  | distanceBits last codes length range =>
      change feedNumber .lowFirst range.bits s b = _ at hfeed
      have hmore := feedNumber_more hfeed
      exact ⟨hmore.1, Nat.lt_of_lt_of_le hmore.2 h.2⟩
  | _ => cases hcoded

theorem longest_pos (phase : Phase) : 0 < phase.longest := by
  cases phase <;> exact Nat.succ_pos _

/-- How many bits have been taken in at most since the pace was set, those of the field at hand
    left out. -/
def spent : Phase → Pace → Nat
  | symbol _ _, .first _ => 0
  | symbol _ _, _ => longestCodeword
  | lengthBits _ _ _, _ => 2 * longestCodeword
  | distance _ _ _, _ => 2 * longestCodeword + 5
  | distanceBits _ _ _ _, _ => 3 * longestCodeword + 5
  | _, _ => 0

end Phase

namespace Pace

/-- How many bytes of room are kept for a literal that another symbol is to follow. -/
def due : Pace → Nat
  | first _ => 1
  | _ => 0

/-- A swift pace is kept within a block only, and what is taken in there is bounded. -/
theorem of_isSwift_between {pace : Pace} {here next : Phase}
    (h : (pace.between here next).isSwift = true) :
    pace.isSwift = true ∧ here.isCoded = true ∧ next.isCoded = true ∧
      here.spent pace + here.longest ≤ next.spent (pace.between here next) := by
  unfold between at h ⊢
  split at h
  next =>
    cases pace with
    | first swift => exact ⟨h, rfl, rfl, Nat.le_of_ble_eq_true rfl⟩
    | _ => cases h
  next => exact ⟨h, rfl, rfl, by cases pace <;> exact Nat.le_of_ble_eq_true rfl⟩
  next => exact ⟨h, rfl, rfl, by cases pace <;> exact Nat.le_of_ble_eq_true rfl⟩
  next => exact ⟨h, rfl, rfl, Nat.le_of_ble_eq_true rfl⟩
  next => exact ⟨h, rfl, rfl, Nat.le_of_ble_eq_true rfl⟩
  next => cases h

theorem isSwift_of_topsUp {pace : Pace} {here next : Phase} (h : pace.topsUp here next = true) :
    (pace.between here next).isSwift = true := by
  unfold topsUp at h
  split at h
  · exact h
  · exact h
  · exact h
  · cases h

end Pace

namespace Phase

/-- What is known of where a value leads to. -/
structure Leads (here : Phase) (move : Move) : Prop where
  bounded : move.phase.Bounded
  -- Within a block fields follow one another directly
  aligned : move.phase.isCoded = true → move.align = false
  -- One byte at most is owed from one symbol to the next, and none within a back reference
  owed : ∀ {pace : Pace}, (pace.between here move.phase).isSwift = true →
    move.owed.length + (pace.between here move.phase).due ≤ pace.due

variable {here : Phase} {move : Move} {wrapped : Bool}

-- What is not within a block is of no concern.
theorem leads_of_uncoded (h : move.phase.isCoded = false) : here.Leads move where
  bounded := bounded_of_uncoded h
  aligned hcoded := Bool.noConfusion (h.symm.trans hcoded)
  owed hswift := Bool.noConfusion (h.symm.trans (Pace.of_isSwift_between hswift).2.2.1)

-- Neither is the pace at the beginning of a block.
theorem leads_of_beginning (h : here.isCoded = false) (hbounded : move.phase.Bounded)
    (haligned : move.align = false) : here.Leads move where
  bounded := hbounded
  aligned _ := haligned
  owed hswift := Bool.noConfusion (h.symm.trans (Pace.of_isSwift_between hswift).2.1)

theorem afterBlock_uncoded (wrapped last : Bool) :
    (afterBlock wrapped last).phase.isCoded = false := by
  unfold afterBlock
  split
  · rfl
  · split <;> rfl

theorem leads_of_takeLengths {last : Bool} {table : LengthTable} {new : List Nat}
    (hhere : here.isCoded = false) (h : takeLengths last table new = .ok move) :
    here.Leads move := by
  unfold takeLengths at h
  dsimp only at h
  split at h
  · cases h
    exact leads_of_uncoded rfl
  · split at h
    · cases h
    · split at h
      next => cases h
      next hcodes =>
        cases h
        exact leads_of_beginning hhere (Codes.ofLengths_bounded hcodes) rfl

theorem leads_of_symbol {last : Bool} {codes : Codes} {n : Nat} (hbounded : codes.Bounded)
    (h : receiveSymbol wrapped last codes n = .ok move) : (symbol last codes).Leads move := by
  unfold receiveSymbol at h
  split at h
  · cases h
    refine ⟨hbounded, fun _ => rfl, fun {pace} hswift => ?_⟩
    cases pace with
    | first swift => exact Nat.le_refl 1
    | _ => cases hswift
  · split at h
    · cases h
      exact leads_of_uncoded (afterBlock_uncoded wrapped last)
    · split at h
      next => cases h
      next range hrange =>
        cases h
        unfold withRange
        split
        · exact ⟨hbounded, fun _ => rfl, fun _ => Nat.le_of_eq (Nat.zero_add _)⟩
        · exact ⟨⟨hbounded, lengthRange_bits hrange⟩, fun _ => rfl,
            fun _ => Nat.le_of_eq (Nat.zero_add _)⟩

theorem leads_of_distance {last : Bool} {codes : Codes} {length n : Nat} (hbounded : codes.Bounded)
    (h : receiveDistance last codes length n = .ok move) :
    (distance last codes length).Leads move := by
  unfold receiveDistance at h
  split at h
  next => cases h
  next range hrange =>
    cases h
    unfold withRange
    split
    · exact ⟨hbounded, fun _ => rfl, fun hswift => nomatch hswift⟩
    · exact ⟨⟨hbounded, distanceRange_bits hrange⟩, fun _ => rfl,
        fun _ => Nat.le_of_eq (Nat.zero_add _)⟩

/-- Whatever the value of a field leads to is as it should be. -/
theorem leads_of_receive {check : Adler} {n : Nat} (hbounded : here.Bounded)
    (h : here.receive wrapped check n = .ok move) : here.Leads move := by
  cases here with
  | header | checksum =>
      unfold receive at h
      dsimp only at h
      split at h <;> cases h
      exact leads_of_uncoded rfl
  | block =>
      unfold receive receiveBlock at h
      dsimp only at h
      split at h <;> cases h
      · exact leads_of_uncoded rfl
      · exact leads_of_beginning rfl Codes.fixed_bounded rfl
      · exact leads_of_uncoded rfl
  | storedLength last =>
      unfold receive receiveStoredLength at h
      dsimp only at h
      split at h
      · cases h
      · split at h <;> cases h
        · exact leads_of_uncoded (afterBlock_uncoded wrapped last)
        · exact leads_of_uncoded rfl
  | stored last left =>
      unfold receive receiveStored at h
      dsimp only at h
      cases h
      split
      · exact leads_of_uncoded (afterBlock_uncoded wrapped last)
      · exact leads_of_uncoded rfl
  | codeSizes last =>
      unfold receive receiveCodeSizes at h
      dsimp only at h
      split at h <;> cases h
      exact leads_of_uncoded rfl
  | lengthCode last sizes read =>
      unfold receive receiveLengthCode at h
      dsimp only at h
      split at h
      · cases h
        exact leads_of_uncoded rfl
      · split at h <;> cases h
        exact leads_of_uncoded rfl
  | codeword last table =>
      unfold receive receiveCodeword at h
      dsimp only at h
      split at h
      · split at h <;> cases h
        exact leads_of_uncoded rfl
      · cases h
        exact leads_of_uncoded rfl
      · cases h
        exact leads_of_uncoded rfl
      · exact leads_of_takeLengths rfl h
  | repetition last table length range => exact leads_of_takeLengths rfl h
  | symbol last codes => exact leads_of_symbol hbounded h
  | lengthBits last codes range =>
      cases h
      exact ⟨hbounded.1, fun _ => rfl, fun _ => Nat.le_of_eq (Nat.zero_add _)⟩
  | distance last codes length => exact leads_of_distance hbounded h
  | distanceBits last codes length range =>
      cases h
      exact ⟨hbounded.1, fun _ => rfl, fun hswift => nomatch hswift⟩
  | done =>
      cases h
      exact leads_of_uncoded rfl

end Phase

/-! ## What the machine writes -/

namespace Engine

variable {e e' : Engine} {room : Nat} {new : List UInt8} {standing : Standing}

theorem copyFrom_eq (distance count : Nat) (e : Engine) (written : List UInt8) :
    ∃ window check new, copyFrom distance count e written =
      ({ e with window := window, check := check }, new ++ written) ∧ new.length = count := by
  induction count generalizing e written with
  | zero => exact ⟨e.window, e.check, [], rfl, rfl⟩
  | succ count ih =>
      rcases ih (e.emit (e.window.back distance)) (e.window.back distance :: written) with
        ⟨window, check, new, hcopy, hlength⟩
      refine ⟨window, check, new ++ [e.window.back distance], ?_, ?_⟩
      · rw [copyFrom, hcopy, List.append_assoc]
        rfl
      · rw [List.length_append, hlength]
        rfl

/-- The machine writes all that it owes, or as much as there is room for. -/
inductive Writes (e : Engine) (room : Nat) : Settled Error Engine → Prop
  | whole {window : Window} {check : Adler} {new : List UInt8} (fits : e.owed.length ≤ room)
      (all : new.length = e.owed.length) :
      Writes e room ⟨{ e with owed := .nothing, window := window, check := check }, new,
        .ok e.standing⟩
  | part {owed : Owed} {window : Window} {check : Adler} {new : List UInt8}
      (short : room < e.owed.length) (full : new.length = room) :
      Writes e room ⟨{ e with owed := owed, window := window, check := check }, new, .ok .blocked⟩

theorem writes_settle (e : Engine) (room : Nat) : e.Writes room (e.settle room) := by
  rcases e with ⟨wrapped, phase, field, skip, position, pace, topUp, owed, window, check⟩
  unfold settle
  cases owed with
  | nothing => exact .whole (Nat.zero_le _) rfl
  | literal b =>
      dsimp only
      split
      next hnone =>
        subst hnone
        exact .part Nat.one_pos rfl
      next hroom => exact .whole (Nat.one_le_iff_ne_zero.mpr hroom) rfl
  | copy length distance =>
      dsimp only
      rcases copyFrom_eq distance (min length room)
        ⟨wrapped, phase, field, skip, position, pace, topUp, .nothing, window, check⟩ [] with
        ⟨window', check', new, hcopy, hlength⟩
      rw [hcopy, List.append_nil]
      dsimp only
      split
      next hshort => exact .part hshort (by rw [hlength]; omega)
      next hfits => exact .whole (Nat.le_of_not_lt hfits) (by rw [hlength, Owed.length]; omega)

theorem writes_of_settle {settled : Settled Error Engine} (h : machine.settle e room = settled) :
    e.Writes room settled :=
  h ▸ writes_settle e room

/-! ## What the machine looks at -/

/-- The machine looks at what there is. -/
inductive Looks (e : Engine) (s : Supply) : Engine × Appetite → Prop
  -- Further bytes are to be read within a back reference
  | toppedUp (topUp : e.topUp = true) : Looks e s ({ e with topUp := false }, e.twoCodewordsAhead s)
  -- The pace is set
  | single (topUp : e.topUp = false) : Looks e s ({ e with pace := .single }, e.nextCodeword s)
  | first {swift : Bool} (topUp : e.topUp = false) (coded : e.phase.isCoded = true)
      (unread : 4 ≤ s.unread) (plenty : swift = true → swiftRoom ≤ s.room ∧ swiftInput ≤ s.unread) :
      Looks e s ({ e with pace := .first swift }, e.twoCodewordsAhead s)
  -- A stored byte waits for room
  | crowded (topUp : e.topUp = false) (uncoded : e.phase.isCoded = false) (room : s.room = 0) :
      Looks e s (e, .room)
  | plain {appetite : Appetite} (topUp : e.topUp = false)
      (wants : appetite = .bit ∨ appetite = nextBit s ∨ appetite = e.nextCodeword s) :
      Looks e s (e, appetite)

theorem looks_approach {s : Supply} (htopUp : e.topUp = false) (hcoded : e.phase.isCoded = true) :
    e.Looks s (e.approach s) := by
  unfold approach
  split
  next => exact .single htopUp
  next hmany =>
    simp only [Bool.or_eq_true, decide_eq_true_iff, not_or, Nat.not_lt] at hmany
    refine .first htopUp hcoded hmany.1 fun hswift => ?_
    simpa only [Bool.and_eq_true, decide_eq_true_iff] using hswift

theorem looks_prepare (e : Engine) (s : Supply) : e.Looks s (e.prepare s) := by
  unfold prepare
  split
  next htopUp => exact .toppedUp htopUp
  next htopUp =>
    rw [Bool.not_eq_true] at htopUp
    split
    next last codes hphase =>
      have hcoded : e.phase.isCoded = true := by rw [hphase]; rfl
      unfold nextSymbol
      split
      · exact looks_approach htopUp hcoded
      · split
        · exact looks_approach htopUp hcoded
        · exact .plain htopUp (.inl rfl)
      · exact .plain htopUp (.inl rfl)
      · exact .plain htopUp (.inl rfl)
    next => exact .plain htopUp (.inr (.inr rfl))
    next => exact .plain htopUp (.inr (.inr rfl))
    next last left hphase =>
      split
      next hwaits =>
        simp only [Bool.and_eq_true, beq_iff_eq] at hwaits
        exact .crowded htopUp (by rw [hphase]; rfl) hwaits.1.1
      next => exact .plain htopUp (.inr (.inl rfl))
    next => exact .plain htopUp (.inr (.inl rfl))

theorem looks_of_prepare {s : Supply} {looked : Engine × Appetite}
    (h : machine.prepare e s = looked) : e.Looks s looked :=
  h ▸ looks_prepare e s

/-! ## What the machine counts on -/

/-- What holds of the machine at any time. -/
structure Sound (e : Engine) : Prop where
  bounded : e.phase.Bounded
  short : e.phase.isCoded = true → e.field.length < e.phase.longest
  direct : e.phase.isCoded = true → e.skip = 0
  coded : e.pace.isSwift = true → e.phase.isCoded = true
  topUp : e.topUp = true → e.pace.isSwift = true

/-- At a swift pace there is as much input and room as there was said to be, less what has been
    taken in and what has been written since. -/
structure Supplied (e : Engine) (s : Supply) : Prop extends e.Sound where
  input : e.pace.isSwift = true → 8 * swiftInput ≤
    e.phase.spent e.pace + e.field.length + s.held.length + 8 * s.unread
  room : e.pace.isSwift = true → e.owed.length + e.pace.due ≤ s.room

/-- The machine counts on nothing. -/
structure Rested (e : Engine) : Prop extends e.Sound where
  slow : e.pace.isSwift = false

theorem Rested.supplied (h : e.Rested) (s : Supply) : e.Supplied s :=
  ⟨h.toSound, fun hswift => Bool.noConfusion (h.slow.symm.trans hswift),
    fun hswift => Bool.noConfusion (h.slow.symm.trans hswift)⟩

theorem start_rested (wrapped : Bool) : (start wrapped).Rested := by
  cases wrapped <;> exact ⟨⟨trivial, nofun, nofun, nofun, nofun⟩, rfl⟩

-- Where symbols are not read, nothing is counted on.
theorem Sound.slow (h : e.Sound) (huncoded : e.phase.isCoded = false) : e.pace.isSwift = false := by
  rw [← Bool.not_eq_true]
  exact fun hswift => Bool.noConfusion (huncoded.symm.trans (h.coded hswift))

theorem Supplied.writes {s : Supply} (h : e.Supplied s)
    (hsettle : machine.settle e s.room = ⟨e', new, .ok .hungry⟩) :
    e'.Supplied ⟨s.room - new.length, s.held, s.unread⟩ ∧ e'.owed = .nothing ∧
      e'.phase.isDone = false ∧ new.length ≤ s.room := by
  have hwrites := writes_of_settle hsettle
  generalize hstanding : Standing.hungry = standing at hwrites
  cases hwrites with
  | part _ _ => cases hstanding
  | whole hfits hall =>
      refine ⟨⟨⟨h.bounded, h.short, h.direct, h.coded, h.topUp⟩, h.input, fun hswift => ?_⟩, rfl,
        ?_, by omega⟩
      · have hroom := h.room hswift
        dsimp only [Owed.length]
        omega
      · unfold Engine.standing at hstanding
        split at hstanding
        · cases hstanding
        next hrunning => exact Bool.not_eq_true _ ▸ hrunning

theorem Supplied.looks {s : Supply} {appetite : Appetite} (h : e.Supplied s)
    (howed : e.owed = .nothing) (hlooks : e.Looks s (e', appetite)) : e'.Supplied s := by
  cases hlooks with
  | toppedUp _ =>
      exact ⟨⟨h.bounded, h.short, h.direct, h.coded, nofun⟩, h.input, h.room⟩
  | single htopUp =>
      exact ⟨⟨h.bounded, h.short, h.direct, nofun,
        fun ht => Bool.noConfusion (htopUp.symm.trans ht)⟩, nofun, nofun⟩
  | @first swift htopUp hcoded _ hplenty =>
      refine ⟨⟨h.bounded, h.short, h.direct, fun _ => hcoded,
        fun ht => Bool.noConfusion (htopUp.symm.trans ht)⟩, fun hswift => ?_, fun hswift => ?_⟩
      · have hinput := (hplenty hswift).2
        dsimp only
        omega
      · have hroom := (hplenty hswift).1
        dsimp only
        rw [howed, Owed.length, Pace.due]
        unfold swiftRoom at hroom
        omega
  | crowded _ _ _ => exact h
  | plain _ _ => exact h

/-- A machine that has taken in a value has used up no more than the longest field. -/
theorem Supplied.moved {held : List Bool} {b : Bool} {unread position n : Nat} {move : Move}
    (h : e.Supplied ⟨room, b :: held, unread⟩)
    (hreceive : e.phase.receive e.wrapped e.check n = .ok move) :
    (e.moved position move).Supplied ⟨room, held, unread⟩ := by
  have hleads := Phase.leads_of_receive h.bounded hreceive
  refine ⟨⟨hleads.bounded, fun _ => ?_, fun hcoded => ?_, fun hswift => ?_,
    Pace.isSwift_of_topsUp⟩, fun hswift => ?_, fun hswift => ?_⟩
  · exact Phase.longest_pos _
  · exact if_neg (by rw [hleads.aligned hcoded]; exact Bool.false_ne_true)
  · exact (Pace.of_isSwift_between hswift).2.2.1
  · rcases Pace.of_isSwift_between hswift with ⟨hbefore, hcoded, _, hspent⟩
    have hinput := h.input hbefore
    have hshort := h.short hcoded
    rw [List.length_cons] at hinput
    dsimp only [Engine.moved, FieldState.empty] at hinput ⊢
    omega
  · have howed := hleads.owed hswift
    have hroom := h.room (Pace.of_isSwift_between hswift).1
    dsimp only [Engine.moved] at hroom ⊢
    omega

theorem Supplied.feeds {held : List Bool} {b : Bool} {unread : Nat}
    (h : e.Supplied ⟨room, b :: held, unread⟩) (hfeed : e.feed b = .ok e') :
    e'.Supplied ⟨room, held, unread⟩ := by
  unfold feed at hfeed
  dsimp only at hfeed
  split at hfeed
  next skip hskip =>
    cases hfeed
    have huncoded : e.phase.isCoded = false := by
      rw [← Bool.not_eq_true]
      intro hcoded
      rw [h.direct hcoded] at hskip
      cases hskip
    have hslow := h.toSound.slow huncoded
    have hno : ∀ {P : Prop}, e.phase.isCoded = true → P :=
      fun hcoded => Bool.noConfusion (huncoded.symm.trans hcoded)
    have hrested : Rested { e with skip := skip, position := (e.position + 1) % 8 } :=
      ⟨⟨h.bounded, hno, hno, h.coded, h.topUp⟩, hslow⟩
    exact hrested.supplied _
  next =>
    split at hfeed
    next field hmore =>
      cases hfeed
      have hlength : e.phase.isCoded = true →
          field.length = e.field.length + 1 ∧ field.length < e.phase.longest :=
        fun hcoded => Phase.length_of_more hcoded h.bounded hmore
      refine ⟨⟨h.bounded, fun hcoded => (hlength hcoded).2, h.direct, h.coded, h.topUp⟩,
        fun hswift => ?_, h.room⟩
      have hinput := h.input hswift
      rw [List.length_cons] at hinput
      dsimp only at hinput ⊢
      rw [(hlength (h.coded hswift)).1]
      omega
    next => cases hfeed
    next n _ =>
      rcases map_eq_ok hfeed with ⟨move, hreceive, rfl⟩
      exact h.moved hreceive

/-- The machine is supplied as it should be throughout a run. -/
theorem keeps_supplied : machine.Keeps Supplied where
  looks := by
    intro e e' e'' s new appetite h hsettle hprepare
    have hwrites := h.writes hsettle
    exact hwrites.1.looks hwrites.2.1 (looks_of_prepare hprepare)
  feeds := Supplied.feeds
  reads := by
    intro e room unread held b h
    refine ⟨h.toSound, fun hswift => ?_, h.room⟩
    have hinput := h.input hswift
    have hlength := machine.order.length_bits b
    dsimp only at hinput ⊢
    rw [List.length_append, hlength]
    omega

/-! ## Where the machine stops -/

/-- Nothing is left for the machine to go on with: it has taken in every bit and written every byte,
    and its stream is not over. -/
structure Starved (e : Engine) (held : List Bool) : Prop where
  owed : e.owed = .nothing
  running : e.phase.isDone = false
  held : held = []

theorem machine_fits : machine.Fits := by
  intro e e' room new standing hsettle
  cases writes_of_settle hsettle with
  | whole hfits hall => omega
  | part _ hfull => omega

-- What the machine is fed at a swift pace is there when the pace is set.
theorem Supplied.plenty {held : List Bool} (h : e.Supplied ⟨room, held, 0⟩)
    (hswift : e.pace.isSwift = true) : twoCodewords ≤ held.length := by
  have hinput := h.input hswift
  have hcoded := h.coded hswift
  have hshort := h.short hcoded
  have hspent : e.phase.spent e.pace + e.phase.longest ≤ 3 * longestCodeword + 18 := by
    rcases e with ⟨wrapped, phase, field, skip, position, pace, topUp, owed, window, check⟩
    cases phase with
    | symbol => cases pace <;> exact Nat.le_of_ble_eq_true rfl
    | lengthBits | distance | distanceBits => exact Nat.le_of_ble_eq_true rfl
    | _ => cases hcoded
  unfold twoCodewords
  unfold swiftInput at hinput
  unfold longestCodeword at hspent ⊢
  dsimp only at hinput
  omega

theorem held_of_nextBit {s : Supply} (h : nextBit s = .bit → s.held = []) : s.held = [] := by
  unfold nextBit at h
  split at h
  next hempty => exact List.isEmpty_iff.mp hempty
  next => exact h rfl

theorem nextCodeword_of_last (e : Engine) {s : Supply} (h : s.unread = 0) :
    e.nextCodeword s = nextBit s := by
  unfold nextCodeword
  rw [h]
  exact if_neg (by simp)

/-- What wants more after the last byte has taken in every bit, and counts on nothing. -/
theorem Supplied.starves {held : List Bool} {appetite : Appetite}
    (h : e.Supplied ⟨room, held, 0⟩) (hlooks : e.Looks ⟨room, held, 0⟩ (e', appetite))
    (hmore : appetite ≠ .room) (hnothing : appetite = .bit → held = []) :
    held = [] ∧ e'.pace.isSwift = false := by
  have hnone : held = [] := by
    cases hlooks with
    | toppedUp htopUp =>
        have hplenty := h.plenty (h.topUp htopUp)
        apply hnothing
        unfold twoCodewordsAhead bitsAtHand
        exact if_neg (Nat.not_lt.mpr (Nat.le_add_left_of_le hplenty))
    | single _ =>
        rw [nextCodeword_of_last e rfl] at hnothing
        exact held_of_nextBit hnothing
    | first _ _ hunread _ => cases hunread
    | crowded _ _ _ => exact absurd rfl hmore
    | plain _ hwants =>
        rcases hwants with rfl | rfl | rfl
        · exact hnothing rfl
        · exact held_of_nextBit hnothing
        · rw [nextCodeword_of_last e rfl] at hnothing
          exact held_of_nextBit hnothing
  subst hnone
  refine ⟨rfl, ?_⟩
  have hslow : e.pace.isSwift = false := by
    rw [← Bool.not_eq_true]
    intro hswift
    cases h.plenty hswift
  cases hlooks with
  | single _ => rfl
  | first _ _ hunread _ => cases hunread
  | _ => exact hslow

/-- Looking at what there is moves nothing. -/
theorem Looks.same {s : Supply} {appetite : Appetite} (h : e.Looks s (e', appetite)) :
    e'.phase = e.phase ∧ e'.owed = e.owed := by
  cases h <;> exact ⟨rfl, rfl⟩

-- No place is wanted but for a stored byte that has not been read.
theorem Looks.crowds {s : Supply} (h : e.Looks s (e', .room)) :
    e' = e ∧ e.phase.isCoded = false ∧ s.room = 0 := by
  generalize happetite : Appetite.room = appetite at h
  have hbit : Appetite.room ≠ nextBit s := by
    unfold nextBit
    split <;> exact Appetite.noConfusion
  have hcodeword : Appetite.room ≠ e.nextCodeword s := by
    unfold nextCodeword
    split
    · exact Appetite.noConfusion
    · exact hbit
  have htwo : Appetite.room ≠ e.twoCodewordsAhead s := by
    unfold twoCodewordsAhead
    split <;> exact Appetite.noConfusion
  cases h with
  | toppedUp _ => exact absurd happetite htwo
  | single _ => exact absurd happetite hcodeword
  | first _ _ _ _ => exact absurd happetite htwo
  | crowded _ huncoded hroom => exact ⟨rfl, huncoded, hroom⟩
  | plain _ hwants =>
      rcases hwants with rfl | rfl | rfl
      · cases happetite
      · exact absurd happetite hbit
      · exact absurd happetite hcodeword

/-- How a machine that was supplied as it should be stops: within its input it has used up its room
    or is over, and after the last byte nothing is left for it. -/
inductive Rests (z : Moment Engine) (new : List UInt8) (e : Engine) : Standing → Prop
  | blocked (full : new.length = z.room) : Rests z new e .blocked
  | hungry (starved : e.Starved z.held) : Rests z new e .hungry
  | done (ended : e.isDone = true) : Rests z new e .done

theorem Supplied.rests {z : Moment Engine} (h : z.engine.Supplied z.supply)
    (hcloses : machine.Closes z new e standing) (hlast : standing = .hungry → z.unread = []) :
    e.Rested ∧ e.Rests z new standing := by
  cases hcloses with
  | settled hsettle hwaits =>
      cases writes_of_settle hsettle with
      | whole _ _ =>
          unfold Engine.standing at hwaits ⊢
          split at hwaits
          next hdone =>
            rw [if_pos hdone]
            refine ⟨⟨⟨h.bounded, h.short, h.direct, h.coded, h.topUp⟩,
              h.toSound.slow (Phase.uncoded_of_isDone hdone)⟩, .done ?_⟩
            rw [Engine.isDone, hdone]
            rfl
          next => exact absurd rfl hwaits
      | part hshort hfull =>
          refine ⟨⟨⟨h.bounded, h.short, h.direct, h.coded, h.topUp⟩, ?_⟩, .blocked hfull⟩
          -- At a swift pace there is room for whatever is owed.
          rw [← Bool.not_eq_true]
          intro hswift
          have hroom : z.engine.owed.length + z.engine.pace.due ≤ z.room := h.room hswift
          omega
  | crowded hsettle hprepare =>
      rcases h.writes hsettle with ⟨hwritten, howed, hrunning, hfits⟩
      rcases (looks_of_prepare hprepare).crowds with ⟨rfl, huncoded, hroom⟩
      exact ⟨⟨hwritten.toSound, hwritten.toSound.slow huncoded⟩,
        .blocked (Nat.le_antisymm hfits (Nat.sub_eq_zero_iff_le.mp hroom))⟩
  | starved hsettle hprepare hmore hnothing =>
      rcases h.writes hsettle with ⟨hwritten, howed, hrunning, hfits⟩
      have hlooks := looks_of_prepare hprepare
      rcases z with ⟨engine, room, held, unread⟩
      cases hlast rfl
      rcases hwritten.starves hlooks hmore hnothing with ⟨hnone, hslow⟩
      rcases hlooks.same with ⟨hphase, hsame⟩
      exact ⟨⟨(hwritten.looks howed hlooks).toSound, hslow⟩,
        .hungry ⟨hsame.trans howed, hphase ▸ hrunning, hnone⟩⟩

/-- A run of a machine that counts on nothing exhausts its room or its input, and then the machine
    counts on nothing again. -/
theorem rested_of_run {held : List Bool} {bytes : List UInt8} {halt : Halt Engine} (h : e.Rested)
    (hrun : machine.run e room held bytes = .ok halt) :
    halt.engine.Rested ∧ BitMachine.Exhausts Starved room bytes.length halt ∧
      (halt.standing = .done → halt.engine.isDone = true) := by
  rcases BitMachine.halts_of_run hrun with ⟨taken, out, z, new, e', spare, hhalts⟩
  have hsupplied := keeps_supplied.course hhalts.course (h.supplied _)
  rcases hsupplied.rests hhalts.closes fun hhungry => (hhalts.hungry hhungry).1 with
    ⟨hrested, hrests⟩
  have hengine : halt.engine = e' := by
    by_cases hhungry : halt.standing = .hungry
    · exact (hhalts.hungry hhungry).2
    · exact hhalts.sated hhungry
  rw [← hengine] at hrested hrests
  refine ⟨hrested, hhalts.exhausts machine_fits rfl (fun hblocked => ?_) (fun hhungry => ?_),
    fun hdone => ?_⟩
  · rw [hblocked] at hrests
    cases hrests with
    | blocked hfull => exact hfull
  · rw [hhungry] at hrests
    cases hrests with
    | hungry hstarved => exact hstarved
  · rw [hdone] at hrests
    cases hrests with
    | done hover => exact hover

/-- A machine that nothing is left for writes nothing without further input, and its stream is not
    over then either. -/
theorem run_of_starved {held : List Bool} (h : e.Starved held) (room : Nat) :
    ∃ halt, machine.run e room held [] = .ok halt ∧ halt.written = [] ∧
      halt.engine.isDone = false := by
  rcases h with ⟨howed, hrunning, rfl⟩
  have hsettle : machine.settle e room = ⟨e, [], .ok .hungry⟩ := by
    show e.settle room = _
    unfold settle Engine.standing
    rw [howed, hrunning]
    rfl
  have hover : ∀ {e' : Engine}, e'.phase = e.phase → e'.isDone = false := by
    intro e' hphase
    unfold isDone
    rw [hphase, hrunning]
    rfl
  rw [BitMachine.run, BitMachine.runBytes_nil, BitMachine.runBits, hsettle]
  dsimp only
  rcases hprepare : machine.prepare e ⟨room - ([] : List UInt8).length, [], 0⟩ with ⟨e', appetite⟩
  have hsame := (looks_of_prepare hprepare).same
  cases appetite <;> exact ⟨_, rfl, rfl, hover hsame.1⟩

end Engine

end Deflate

end Decompression
