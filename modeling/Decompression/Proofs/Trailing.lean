import Decompression.Proofs.SessionEnds

/-!
# What Comes After a Stream

A decoder of a single member ignores what comes after its stream, if it comes in the piece that
completes the stream. What comes in a later piece reaches a session that is over, so it is
ignored by deflate, with or without header and checksum, and makes the decoder fail and start
over with bzip2. `trailing_input` says so for every stream and for every way to cut it and the
bytes after it into pieces.

That a stream is decoded however it is cut is a condition there. It is shown to hold of streams
that the machines take in byte by byte and that are written with their last byte at the
earliest, and some short streams are of this kind.

## Main definitions

* `Codec.Defers`: The sessions write nothing until they have read the whole stream.
* `Deflate.Engine.isPlain`, `Bzip2.Engine.isPlain`: States in which bytes are taken in one by one.
* `Deflate.storedByte`, `Deflate.emptyStream`, `Bzip2.emptyStream`: Three short streams.

## Theorems

* `Codec.Defers.carries`: Such sessions decode their stream, however it is cut.
* `defers_of_reads`: Sessions of a machine that reads the stream byte by byte are such sessions.
* `Deflate.carries_of_plain`, `Bzip2.carries_of_plain`: Streams that are taken in byte by byte.
* `trailing_input`: What becomes of the bytes after a stream.
* `trailing_input_short`: The three streams, cut within, with more after them.
* `trailing_input_split`: The same bytes in one piece and in two.
-/

namespace Decompression

open Decoder Loop

/-! ## Streams that are written at once -/

section Deferred

variable {S M : Type} {c : Codec S M} {x out : List UInt8} {P : S → List UInt8 → Prop}

/-- The codec's sessions write nothing before they have read the whole stream `x`, and then all
    that it stands for. In between the session that has read `u` satisfies `P`. -/
structure Codec.Defers (c : Codec S M) (x out : List UInt8) (P : S → List UInt8 → Prop) : Prop where
  start : ∀ memory, ∃ s memory', c.start memory = (.ok s, memory')
  fresh : ∀ {memory memory' s}, c.start memory = (.ok s, memory') → P s []
  short : ∀ {s u}, P s u → ∃ z, z ≠ [] ∧ x = u ++ z
  total : ∀ {s u}, P s u → c.totalOut s = 0
  fits : out.length ≤ 1
  reads : ∀ {s u}, P s u → ∀ {input : Cursor} {buffer z : List UInt8}, buffer ≠ [] →
    x = u ++ input.rest ++ z → z ≠ [] →
    ∃ s', P s' (u ++ input.rest) ∧ c.step s input (.ofBytes buffer) =
      ⟨s', input.advance input.rest.length, (Cursor.ofBytes buffer).fill [], .ok .progress⟩
  ends : ∀ {s u}, P s u → ∀ {input : Cursor} {buffer z t : List UInt8}, buffer ≠ [] →
    x = u ++ z → input.rest = z ++ t →
    ∃ s', c.totalOut s' = out.length ∧ c.step s input (.ofBytes buffer) =
      ⟨s', input.advance z.length, (Cursor.ofBytes buffer).fill out, .ok .streamEnd⟩

-- What is offered either leaves the stream incomplete or completes it.
theorem Codec.Defers.cases_offer (h : c.Defers x out P) {s : S} {u r : List UInt8} (hs : P s u)
    (hon : OnStream x (u ++ r)) :
    (∃ z, z ≠ [] ∧ x = u ++ r ++ z) ∨ ∃ z t, x = u ++ z ∧ r = z ++ t := by
  rcases h.short hs with ⟨z, hz, hx⟩
  rcases hon with ⟨w, hw⟩ | ⟨t, ht⟩
  · by_cases hnone : w = []
    · subst hnone
      rw [List.append_nil] at hw
      exact .inr ⟨r, [], hw.symm, (List.append_nil r).symm⟩
    · exact .inl ⟨w, hnone, hw.symm⟩
  · rw [hx, List.append_assoc] at ht
    exact .inr ⟨z, t, hx, (List.append_cancel_left ht).symm⟩

theorem Codec.Defers.amid (h : c.Defers x out P) {s : S} {u v : List UInt8} (hs : c.Amid x s u v) :
    P s u ∧ v = [] := by
  induction hs with
  | fresh hstart => exact ⟨h.fresh hstart, rfl⟩
  | @step s u v input buffer stepped _ _ hroom hon hstep houtcome ih =>
      rcases ih with ⟨hs, rfl⟩
      rcases h.cases_offer hs hon with ⟨z, hz, hx⟩ | ⟨z, t, hx, hrest⟩
      · rcases h.reads hs hroom hx hz with ⟨s', hs', hstep'⟩
        rw [hstep] at hstep'
        subst hstep'
        refine ⟨?_, (fill_ofBytes (Nat.zero_le _)).2⟩
        rw [between_advance, List.take_length]
        exact hs'
      · rcases h.ends hs hroom hx hrest with ⟨s', _, hstep'⟩
        rw [hstep'] at hstep
        subst hstep
        cases houtcome

/-- Such sessions decode the stream, however it is cut. -/
theorem Codec.Defers.carries (h : c.Defers x out P) : c.Carries x out where
  start := h.start
  fresh hstart := h.total (h.fresh hstart)
  step := by
    intro s u v hs input buffer hbounds hroom hon
    rcases h.amid hs with ⟨hP, rfl⟩
    rcases h.cases_offer hP hon with ⟨z, hz, hx⟩ | ⟨z, t, hx, hrest⟩
    · rcases h.reads hP hroom hx hz with ⟨s', hs', hstep⟩
      have hfill : ((Cursor.ofBytes buffer).fill []).InBounds ∧
        ((Cursor.ofBytes buffer).fill []).front = [] := fill_ofBytes (Nat.zero_le _)
      have hread : u ++ input.between (input.advance input.rest.length) = u ++ input.rest := by
        rw [between_advance, List.take_length]
      rw [hstep]
      refine ⟨rfl, Nat.le_add_right _ _, advance_inBounds hbounds (Nat.le_refl _), hfill.1, ?_,
        ⟨_, rfl⟩, ?_, ?_, ?_, ?_⟩
      · rw [h.total hP, h.total hs', hfill.2]
        rfl
      · rw [hfill.2]
        exact List.nil_prefix
      · intro _
        dsimp only
        rw [hread, hx]
        exact List.prefix_append _ z
      · intro _ _
        dsimp only
        rw [hread, rest_advance, List.drop_length]
        refine ⟨rfl, fun hall => hz ?_⟩
        rw [hall] at hx
        exact List.self_eq_append_right.mp hx
      · intro hend
        cases hend
    · rcases h.ends hP hroom hx hrest with ⟨s', htotal, hstep⟩
      have hfill : ((Cursor.ofBytes buffer).fill out).InBounds ∧
        ((Cursor.ofBytes buffer).fill out).front = out :=
        fill_ofBytes (Nat.le_trans h.fits (List.length_pos_iff.mpr hroom))
      have hread : u ++ input.between (input.advance z.length) = x := by
        rw [between_advance, hrest, List.take_left, hx]
      have hlength : z.length ≤ input.rest.length := by
        rw [hrest, List.length_append]
        exact Nat.le_add_right _ _
      rw [hstep]
      refine ⟨rfl, Nat.le_add_right _ _, advance_inBounds hbounds hlength, hfill.1, ?_,
        ⟨_, rfl⟩, ?_, ?_, ?_, ?_⟩
      · rw [h.total hP, htotal, hfill.2, Nat.zero_add]
      · rw [hfill.2]
        exact List.prefix_rfl
      · intro hprogress
        cases hprogress
      · intro hprogress
        cases hprogress
      · intro _
        exact ⟨hread, hfill.2⟩

/-- A session that has read `u` of the stream `x`, of which its machine reads every byte on the way
    to `e'`. -/
def Within {ε E : Type} (m : BitMachine ε E) (session : E → Nat → S) (x : List UInt8) (e' : E)
    (s : S) (u : List UInt8) : Prop :=
  ∃ e z, s = session e u.length ∧ z ≠ [] ∧ x = u ++ z ∧ m.Reads e z e'

theorem defers_of_reads {ε E : Type} {m : BitMachine ε E} (session : E → Nat → S) {first e' : E}
    (hstart : ∀ memory, c.start memory = (.ok (session first 0), memory))
    (htotal : ∀ e n, c.totalOut (session e n) = 0) (hx : x ≠ []) (h : m.Reads first x e')
    (hout : out.length ≤ 1)
    (hreads : ∀ {e e₁ n} {input : Cursor} {buffer : List UInt8}, m.Starves e →
      m.Reads e input.rest e₁ → m.Starves e₁ → buffer ≠ [] →
      c.step (session e n) input (.ofBytes buffer) = ⟨session e₁ (n + input.rest.length),
        input.advance input.rest.length, (Cursor.ofBytes buffer).fill [], .ok .progress⟩)
    (hends : ∀ {e n z t} {input : Cursor} {buffer : List UInt8}, m.Starves e → m.Reads e z e' →
      input.rest = z ++ t → buffer ≠ [] →
      ∃ s', c.totalOut s' = out.length ∧ c.step (session e n) input (.ofBytes buffer) =
        ⟨s', input.advance z.length, (Cursor.ofBytes buffer).fill out, .ok .streamEnd⟩) :
    c.Defers x out (Within m session x e') where
  start memory := ⟨_, _, hstart memory⟩
  fresh := by
    intro memory memory' s hs
    rw [hstart] at hs
    cases hs
    exact ⟨first, x, rfl, hx, rfl, h⟩
  short := by
    rintro s u ⟨_, z, _, hz, hu, _⟩
    exact ⟨z, hz, hu⟩
  total := by
    rintro s u ⟨_, _, rfl, _⟩
    exact htotal _ _
  fits := hout
  reads := by
    rintro s u ⟨e, w, rfl, hne, hw, hread⟩ input buffer z hroom hall hz
    have hstarves := hread.starves hne
    rw [hw, List.append_assoc] at hall
    rw [List.append_cancel_left hall] at hread hw
    rcases BitMachine.Reads.append_iff.mp hread with ⟨e₁, hfirst, hrest⟩
    rw [← List.append_assoc] at hw
    refine ⟨_, ⟨e₁, z, ?_, hz, hw, hrest⟩, hreads hstarves hfirst (hrest.starves hz) hroom⟩
    rw [List.length_append]
  ends := by
    rintro s u ⟨e, w, rfl, hne, hw, hread⟩ input buffer z t hroom hall hinput
    have hstarves := hread.starves hne
    rw [hw] at hall
    rw [List.append_cancel_left hall] at hread
    exact hends hstarves hread hinput hroom

end Deferred

namespace Deflate

theorem step_reads {e e' : Engine} {input : Cursor} (totalIn : Nat) (output : Cursor)
    (h : machine.Reads e input.rest e') (hstarves : machine.Starves e') :
    Session.step ⟨.ok e, [], [], totalIn, 0⟩ input output =
      ⟨⟨.ok e', [], [], totalIn + input.rest.length, 0⟩, input.advance input.rest.length,
        output.fill [], .ok .progress⟩ := by
  rcases BitMachine.run_reads h hstarves e.window.place_pos with ⟨wanted, hrun⟩
  have hrunning : e'.isDone = false := by
    rw [← Bool.not_eq_true]
    exact fun hdone => hstarves.not_over (Engine.over_of_isDone hdone)
  have hcall : primitive.decompress ⟨.ok e, [], [], totalIn, 0⟩ input.rest output.room =
      (⟨.ok e', [], [], totalIn + input.rest.length, 0⟩,
        .ok ⟨[], Decompressor.codeOf e' [] input.rest.isEmpty⟩) := by
    change Decompressor.passes output.room e [] input.rest totalIn 0 output.room [] = _
    rw [Decompressor.passes.eq_def, hrun]
    simp [Decompressor.close]
  have hprogress : (Decompressor.codeOf e' [] input.rest.isEmpty).status = .progress := by
    refine status_eq_progress_iff.mpr fun hover => ?_
    cases hrunning.symm.trans (Decompressor.codeOf_eq_streamEnd_iff.mp hover).1
  rw [← hprogress]
  exact Adapter.step_of_counted (a := adapter primitive) ⟨hcall, Nat.zero_le _, rfl, rfl⟩

theorem step_ends {e e' e'' : Engine} {input output : Cursor} {z t new : List UInt8} (totalIn : Nat)
    (h : machine.Reads e z e') (hfin : machine.Finishes e' new e'') (hdone : e''.isDone = true)
    (hinput : input.rest = z ++ t) (hroom : 0 < output.room) (hnew : new.length ≤ 1) :
    Session.step ⟨.ok e, [], [], totalIn, 0⟩ input output =
      ⟨⟨.ok e'', [], [], totalIn + z.length, new.reverse.length⟩, input.advance z.length,
        output.fill new.reverse, .ok .streamEnd⟩ := by
  have hplace := e.window.place_pos
  have hrun := BitMachine.run_finishes (t := t) h hfin rfl hplace (Nat.le_trans hnew hplace)
  have hlength : new.reverse.length ≤ output.room := by
    rw [List.length_reverse]
    exact Nat.le_trans hnew hroom
  have hcall : primitive.decompress ⟨.ok e, [], [], totalIn, 0⟩ input.rest output.room =
      (⟨.ok e'', [], [], totalIn + z.length, new.reverse.length⟩,
        .ok ⟨new.reverse, .streamEnd⟩) := by
    change Decompressor.passes output.room e [] input.rest totalIn 0 output.room [] = _
    rw [Decompressor.passes.eq_def, hinput, hrun]
    simp [Decompressor.close, Decompressor.codeOf, hdone, List.take_of_length_le hlength,
      List.drop_of_length_le hlength]
  exact Adapter.step_of_counted (a := adapter primitive)
    ⟨hcall, hlength, rfl, (Nat.zero_add _).symm⟩

/-- Neither at a codeword nor at what is read ahead like one. -/
def Phase.isPlain : Phase → Bool
  | .header | .block | .storedLength _ | .stored _ _ | .checksum => true
  | _ => false

/-- Nothing is owed, and bytes are read one by one. -/
def Engine.isPlain (e : Engine) (_ : Nat) : Bool :=
  e.phase.isPlain && e.owed == .nothing && !e.topUp

theorem Engine.prepare_of_isPlain {e : Engine} {n : Nat} (h : e.isPlain n = true) {s : Supply}
    (hs : 0 < s.room ∨ s.held ≠ []) : e.prepare s = (e, nextBit s) := by
  simp only [Engine.isPlain, Bool.and_eq_true, Bool.not_eq_true'] at h
  have hwait : (s.room == 0 && e.field.length == 0 && s.held.isEmpty) = false := by
    rw [← Bool.not_eq_true]
    simp only [Bool.and_eq_true, beq_iff_eq, List.isEmpty_iff, not_and]
    rintro ⟨hroom, _⟩
    exact hs.resolve_left (hroom ▸ Nat.lt_irrefl 0)
  rw [Engine.prepare, h.2]
  cases hphase : e.phase with
  | stored _ _ =>
      dsimp only
      rw [hwait]
      rfl
  | header | block | storedLength _ | checksum => rfl
  | _ =>
      rw [hphase] at h
      cases h.1.1

theorem machine_plain : machine.Plain Engine.isPlain where
  settles := by
    intro e n h room
    rcases e with ⟨wrapped, phase, field, skip, position, pace, topUp, owed, window, check⟩
    simp only [Engine.isPlain, Bool.and_eq_true, beq_iff_eq] at h
    rcases h with ⟨⟨hphase, rfl⟩, _⟩
    cases phase with
    | header | block | storedLength _ | stored _ _ | checksum => rfl
    | _ => cases hphase
  takes := by
    intro e n h s hn hpos
    have hheld : s.held ≠ [] := List.length_pos_iff.mp (Nat.lt_of_lt_of_le hpos hn)
    have hnext : Engine.nextBit s = .bit := by simp [Engine.nextBit, hheld]
    exact hnext ▸ Engine.prepare_of_isPlain h (.inr hheld)
  feeds _ _ _ := rfl
  starves := by
    intro e n h s hheld hroom
    have hnext : Engine.nextBit s = .bytes 1 := by simp [Engine.nextBit, hheld]
    exact ⟨1, hnext ▸ Engine.prepare_of_isPlain h (.inl hroom)⟩
  pauses _ := rfl

theorem finishes_of_literal {e : Engine} {b : UInt8} (hphase : e.phase.isDone = true)
    (howed : e.owed = .literal b) :
    machine.Finishes e [b] ({ e with owed := .nothing }.emit b) := by
  intro room hroom written consumed unread bits
  have hsettle : machine.settle e room = ⟨{ e with owed := .nothing }.emit b, [b], .ok .done⟩ := by
    simp only [machine, Engine.settle, howed]
    rw [if_neg (Nat.ne_of_gt hroom : room ≠ 0), Engine.standing, Engine.emit, if_pos hphase]
  cases bits <;> rw [BitMachine.runBits, hsettle]

theorem carries_of_plain {wrapped : Bool} {x new : List UInt8} {e' e'' : Engine} (hx : x ≠ [])
    (h : machine.takeBytes Engine.isPlain (.start wrapped) x = some e')
    (hfin : machine.Finishes e' new e'') (hdone : e''.isDone = true) (hnew : new.length ≤ 1) :
    (codec wrapped).Carries x new.reverse := by
  have hreads := BitMachine.reads_of_takeBytes machine_plain h
  have hlength : new.reverse.length ≤ 1 := by rwa [List.length_reverse]
  refine (defers_of_reads (fun e n => ⟨.ok e, [], [], n, 0⟩) (fun _ => rfl) (fun _ _ => rfl) hx
    hreads hlength ?_ ?_).carries
  · intro _ _ n _ _ _ hfirst hstarves _
    exact step_reads n _ hfirst hstarves
  · intro _ n _ _ _ _ _ hread hinput hroom
    exact ⟨_, rfl, step_ends n hread hfin hdone hinput (List.length_pos_iff.mpr hroom) hnew⟩

/-- A stored block of one byte. -/
def storedByte : List UInt8 :=
  [1, 1, 0, 0xfe, 0xff, 0x61]

theorem carries_storedByte : (codec false).Carries storedByte [0x61] := by
  have htake : machine.takeBytes Engine.isPlain (.start false) storedByte =
      some ⟨false, .done, .empty, 0, 0, .unset, false, .literal 0x61, .empty, .empty⟩ := rfl
  exact carries_of_plain (by decide) htake (finishes_of_literal rfl rfl) rfl (Nat.le_refl 1)

/-- An empty stored block, with header and checksum. -/
def emptyStream : List UInt8 :=
  [0x78, 0x9c, 1, 0, 0, 0xff, 0xff, 0, 0, 0, 1]

theorem carries_emptyStream : (codec true).Carries emptyStream [] := by
  have htake : machine.takeBytes Engine.isPlain (.start true) emptyStream =
      some ⟨true, .done, .empty, 0, 0, .unset, false, .nothing, .empty, .empty⟩ := rfl
  exact carries_of_plain (by decide) htake (Engine.over_of_isDone rfl).finishes rfl (Nat.zero_le 1)

end Deflate

namespace Bzip2

theorem not_isDone_of_starves {e : Engine} (h : machine.Starves e) : ¬ e.phase.isDone = true :=
  fun hdone => h.not_over (Engine.over_of_isDone hdone)

theorem step_reads {e e' : Engine} {input output : Cursor} (totalIn : Nat)
    (hrunning : machine.Starves e) (h : machine.Reads e input.rest e')
    (hstarves : machine.Starves e') (hroom : 0 < output.room) :
    Session.step ⟨.ok e, [], totalIn, 0⟩ input output =
      ⟨⟨.ok e', [], totalIn + input.rest.length, 0⟩, input.advance input.rest.length,
        output.fill [], .ok .progress⟩ := by
  rcases BitMachine.run_reads h hstarves hroom with ⟨wanted, hrun⟩
  have hcall := decompress_of_run totalIn 0 (not_isDone_of_starves hrunning) hrun
  exact Adapter.step_of_counted (a := adapter primitive) ⟨hcall, Nat.zero_le _, rfl, rfl⟩

theorem step_ends {e e' e'' : Engine} {input output : Cursor} {z t new : List UInt8} (totalIn : Nat)
    (hrunning : machine.Starves e) (h : machine.Reads e z e') (hfin : machine.Finishes e' new e'')
    (hinput : input.rest = z ++ t) (hroom : 0 < output.room) (hnew : new.length ≤ 1) :
    Session.step ⟨.ok e, [], totalIn, 0⟩ input output =
      ⟨⟨.ok e'', [], totalIn + z.length, 0 + new.reverse.length⟩, input.advance z.length,
        output.fill new.reverse, .ok .streamEnd⟩ := by
  have hrun := BitMachine.run_finishes (t := t) h hfin rfl hroom (Nat.le_trans hnew hroom)
  have hfits : new.reverse.length ≤ output.room := by
    rw [List.length_reverse]
    exact Nat.le_trans hnew hroom
  rw [← hinput] at hrun
  have hcall := decompress_of_run totalIn 0 (not_isDone_of_starves hrunning) hrun
  exact Adapter.step_of_counted (a := adapter primitive) ⟨hcall, hfits, rfl, rfl⟩

/-- Around blocks, where every field is of whole bytes. -/
def Phase.isPlain : Phase → Bool
  | .signature _ | .level | .blockOrTrailer | .blockMark _ | .trailerMark _ | .checksum
  | .streamChecksum => true
  | _ => false

/-- At a field of whole bytes, and `n` bits of the byte at hand are left. -/
def Engine.isPlain (e : Engine) (n : Nat) : Bool :=
  e.phase.isPlain && decide (e.phase.need e.field.length ≤ n)

-- What the machine does at such a field does not depend on what has not been read.
theorem Engine.of_isPlain {e : Engine} {n : Nat} (h : e.isPlain n = true) :
    (∀ room, e.settle room = ⟨e, [], .ok .hungry⟩) ∧
    (∀ unread b, e.feed unread b = e.feed 0 b) ∧ e.pause = e := by
  rcases e with ⟨bytewise, capacity, combined, phase, field⟩
  rw [Engine.isPlain, Bool.and_eq_true] at h
  cases phase with
  | signature _ | level | blockOrTrailer | blockMark _ | trailerMark _ | checksum
  | streamChecksum => exact ⟨fun _ => rfl, fun _ _ => rfl, rfl⟩
  | _ => cases h.1

theorem machine_plain : machine.Plain Engine.isPlain where
  settles h := (Engine.of_isPlain h).1
  takes := by
    intro e n h s hn hpos
    rw [Engine.isPlain, Bool.and_eq_true, decide_eq_true_iff] at h
    have hmore : ¬ (s.held.drop (e.phase.need e.field.length - 1)).isEmpty = true := by
      rw [List.isEmpty_iff, List.drop_eq_nil_iff]
      omega
    exact if_neg hmore
  feeds h := (Engine.of_isPlain h).2.1
  starves := by
    intro e n h s hheld hroom
    refine ⟨_, if_pos ?_⟩
    rw [hheld, List.drop_nil]
    rfl
  pauses h := (Engine.of_isPlain h).2.2

theorem carries_of_plain {small : Bool} {x new : List UInt8} {e' e'' : Engine} (hx : x ≠ [])
    (h : machine.takeBytes Engine.isPlain (.start small) x = some e')
    (hfin : machine.Finishes e' new e'') (hnew : new.length ≤ 1) :
    (codec small).Carries x new.reverse := by
  have hreads := BitMachine.reads_of_takeBytes machine_plain h
  have hlength : new.reverse.length ≤ 1 := by rwa [List.length_reverse]
  refine (defers_of_reads (fun e n => ⟨.ok e, [], n, 0⟩) (fun _ => rfl) (fun _ _ => rfl) hx hreads
    hlength ?_ ?_).carries
  · intro _ _ n _ _ hrunning hfirst hstarves hroom
    exact step_reads n hrunning hfirst hstarves (List.length_pos_iff.mpr hroom)
  · intro _ n _ _ _ _ hrunning hread hinput hroom
    refine ⟨_, ?_, step_ends n hrunning hread hfin hinput (List.length_pos_iff.mpr hroom) hnew⟩
    exact Nat.zero_add _

/-- A stream without a block. -/
def emptyStream : List UInt8 :=
  [0x42, 0x5a, 0x68, 0x39, 0x17, 0x72, 0x45, 0x38, 0x50, 0x90, 0, 0, 0, 0]

theorem carries_emptyStream (small : Bool) : (codec small).Carries emptyStream [] := by
  have htake : machine.takeBytes Engine.isPlain (.start small) emptyStream =
      some ⟨small, 900000, 0, .done, .empty⟩ := by cases small <;> rfl
  exact carries_of_plain (by decide) htake (Engine.over_of_isDone rfl).finishes (Nat.zero_le 1)

end Bzip2

/-! ## Bytes after a stream -/

section Trailing

variable {σ : Type} [Sink σ] {x out t : List UInt8} {pieces : List (List UInt8)}

/-- A decoder of a single member, over any of the codecs, ignores what comes after the stream in
    the piece that completes it. What comes in later pieces is ignored by deflate, wrapped or not.
    With bzip2 the first such bytes make the decoder fail and start over. -/
theorem trailing_input (hsink : Accepting σ) (hsize : out.length < offsetLimit) (sink : σ)
    (size : BufferSize) (hpieces : pieces ≠ []) (hall : pieces.flatten = x ++ t) :
    ∃ before p after, pieces = before ++ p :: after ∧ Cut x before p ∧
      (∀ wrapped, (Deflate.codec wrapped).Carries x out →
        (Deflate.codec wrapped).Ignores out () size sink before p after) ∧
      (∀ small, (Bzip2.codec small).Carries x out →
        ((∀ q ∈ after, q = []) → (Bzip2.codec small).Ignores out () size sink before p after) ∧
        ∀ empty q rest, after = empty ++ q :: rest → (∀ b ∈ empty, b = []) → q ≠ [] →
          (Bzip2.codec small).Refuses out Bzip2.outOfSequence () size sink before p empty q) := by
  rcases exists_cut hpieces hall with ⟨before, p, after, hsplit, hcut⟩
  refine ⟨before, p, after, hsplit, hcut, fun wrapped hc => ?_,
    fun small hc => ⟨fun hempty => ?_, ?_⟩⟩
  · exact trailing_ignored hc hsink hsize sink () size hcut fun _ _ _ => Deflate.restsAtEnd wrapped
  · exact trailing_ignored hc hsink hsize sink () size hcut fun q hq hmore =>
      absurd (hempty q hq) hmore
  · intro empty q rest _ hempty hq
    exact trailing_refused hc (Bzip2.refusesAtEnd small) hsink hsize sink () size hcut hempty hq

end Trailing

/-- Three streams with further bytes after them, some of them in later pieces. -/
theorem trailing_input_short :
    (∃ before p after,
      [Deflate.storedByte.take 4, Deflate.storedByte.drop 4 ++ [7], [], [8, 9]] =
        before ++ p :: after ∧
      Cut Deflate.storedByte before p ∧ (Deflate.codec false).Carries Deflate.storedByte [0x61] ∧
      (Deflate.codec false).Ignores [0x61] () ⟨2, by decide⟩ (#[] : Array Chunk) before p after) ∧
    (∃ before p after, [Deflate.emptyStream, [], [8, 9]] = before ++ p :: after ∧
      Cut Deflate.emptyStream before p ∧ (Deflate.codec true).Carries Deflate.emptyStream [] ∧
      (Deflate.codec true).Ignores [] () ⟨2, by decide⟩ (#[] : Array Chunk) before p after) ∧
    ∃ before p after, [Bzip2.emptyStream ++ [7], [], [8, 9]] = before ++ p :: after ∧
      Cut Bzip2.emptyStream before p ∧ (Bzip2.codec false).Carries Bzip2.emptyStream [] ∧
      ∀ empty q rest, after = empty ++ q :: rest → (∀ b ∈ empty, b = []) → q ≠ [] →
        (Bzip2.codec false).Refuses [] Bzip2.outOfSequence () ⟨2, by decide⟩ (#[] : Array Chunk)
          before p empty q := by
  refine ⟨?_, ?_, ?_⟩
  · rcases @trailing_input (Array Chunk) _ Deflate.storedByte [0x61] [7, 8, 9]
      [Deflate.storedByte.take 4, Deflate.storedByte.drop 4 ++ [7], [], [8, 9]] accepting_array
      (by decide) #[] ⟨2, by decide⟩ (by decide) rfl with
      ⟨before, p, after, hsplit, hcut, hdeflate, _⟩
    exact ⟨before, p, after, hsplit, hcut, Deflate.carries_storedByte,
      hdeflate false Deflate.carries_storedByte⟩
  · rcases @trailing_input (Array Chunk) _ Deflate.emptyStream [] [8, 9]
      [Deflate.emptyStream, [], [8, 9]] accepting_array
      (by decide) #[] ⟨2, by decide⟩ (by decide) rfl with
      ⟨before, p, after, hsplit, hcut, hzlib, _⟩
    exact ⟨before, p, after, hsplit, hcut, Deflate.carries_emptyStream,
      hzlib true Deflate.carries_emptyStream⟩
  · rcases @trailing_input (Array Chunk) _ Bzip2.emptyStream [] [7, 8, 9]
      [Bzip2.emptyStream ++ [7], [], [8, 9]] accepting_array
      (by decide) #[] ⟨2, by decide⟩ (by decide) rfl with
      ⟨before, p, after, hsplit, hcut, _, hbzip2⟩
    exact ⟨before, p, after, hsplit, hcut, Bzip2.carries_emptyStream false,
      (hbzip2 false (Bzip2.carries_emptyStream false)).2⟩

/-- Bytes after a bzip2 stream do no harm in the piece that completes it, and are an error in a
    piece of their own. -/
theorem trailing_input_split :
    (Bzip2.codec false).Carries Bzip2.emptyStream [] ∧
    (∃ rs : List (Report (Bzip2.codec false) (Array Chunk)),
      reports 3 (created (Bzip2.codec false) () ⟨2, by decide⟩ false)
        (pushes #[] [Bzip2.emptyStream ++ [7]]) = .ok rs ∧
      rs.map Report.answer = [.ok (.ended true)] ∧ rs.map (fun r => r.after.finished) = [true]) ∧
    ∃ rs : List (Report (Bzip2.codec false) (Array Chunk)),
      reports 3 (created (Bzip2.codec false) () ⟨2, by decide⟩ false)
        (pushes #[] [Bzip2.emptyStream, [7]]) = .ok rs ∧
      rs.map Report.answer = [.ok (.ended true), .error (.ofStep Bzip2.outOfSequence)] ∧
      rs.map (fun r => r.after.finished) = [true, false] :=
  ⟨Bzip2.carries_emptyStream false, ⟨_, rfl, rfl, rfl⟩, ⟨_, rfl, rfl, rfl⟩⟩

end Decompression
