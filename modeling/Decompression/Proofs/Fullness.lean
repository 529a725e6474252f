import Decompression.Proofs.Reporting

/-!
# Full Chunks

A push hands out chunks as large as its buffers, as long as there is enough to fill them. A
chunk may be short for two reasons: the member it belongs to is over, or there is nothing left
to decode it from. A session that leaves room in a buffer has told the decoder as much, but the
decoder does not believe it; it asks for a further buffer and runs the session again. `Dry` is
what is known at that moment: whatever the session does with that buffer, no chunk comes of it.

The log of a push tells where members begin, so it also tells which chunk belongs to which
member: the shares of a log are its chunks, member by member. Every round of a push adds to the
first share of what comes after it, or puts a new one in front.

## Main definitions

* `Codec.Brimming`: Sessions fill the room they have, if they can.
* `shares`: The chunks of a log, member by member.
* `Dry`: Nothing more comes out within this member.
* `Deals`: What a round of a push adds to the shares.
* `Brimful`: All chunks of a share are full but for the last.
* `Packed`: The same of chunks, and there are as many as it takes.

## Theorems

* `shares_flatten`: The shares are the chunks of the log.
* `deals_of_drive`: Every round of a push is such a deal.
* `brimful_of_ends`: The shares of a push are brimful, and there is none after it is dry.
* `count_of_full`: So many full chunks, and a last one, make up so many bytes.
* `only_last_short`: The chunks of every push.
* `copier_brimming`: Sessions that copy do so.
-/

namespace Decompression

open Decoder Loop

variable {S M : Type} {c : Codec S M} {σ : Type}

/-- Sessions write to the buffer they are given; if they leave room in it while the stream goes
    on, then they have read everything, and the next step without further input writes nothing. -/
structure Codec.Brimming (c : Codec S M) : Prop where
  fits : ∀ {s : S} {input : Cursor} {buffer : List UInt8} {stepped : Stepped S} {status : Status},
    c.Reached s → input.InBounds → buffer ≠ [] → c.step s input (.ofBytes buffer) = stepped →
    stepped.outcome = .ok status → stepped.output.InBounds →
    stepped.output.front.length ≤ buffer.length
  drains : ∀ {s : S} {input : Cursor} {buffer : List UInt8} {stepped : Stepped S},
    c.Reached s → input.InBounds → buffer ≠ [] → c.step s input (.ofBytes buffer) = stepped →
    stepped.outcome = .ok .progress → stepped.output.front.length < buffer.length →
    stepped.input.rest = []
  waits : ∀ {s : S} {input : Cursor} {buffer buffer' : List UInt8} {stepped : Stepped S}
    {status : Status},
    c.Reached s → input.InBounds → buffer ≠ [] → c.step s input (.ofBytes buffer) = stepped →
    stepped.outcome = .ok .progress → stepped.output.front.length < buffer.length → buffer' ≠ [] →
    (c.step stepped.session stepped.input (.ofBytes buffer')).outcome = .ok status →
    (c.step stepped.session stepped.input (.ofBytes buffer')).output.front = []

/-! ## Shares of a log -/

/-- The event begins a further member. -/
def Event.opensMember : Event → Bool
  | .nextMember _ => true
  | _ => false

/-- The chunks that a log tells of, member by member. -/
def shares : List Event → List (List (Nat × Nat))
  | [] => [[]]
  | event :: later =>
    if event.opensMember then [] :: shares later
    else (shares later).modifyHead (event.span?.toList ++ ·)

/-- There is a share for the member that the log begins in. -/
theorem shares_eq_cons (events : List Event) :
    ∃ first further, shares events = first :: further := by
  induction events with
  | nil => exact ⟨[], [], rfl⟩
  | cons event later ih =>
      rcases ih with ⟨first, further, hshares⟩
      unfold shares
      by_cases hopens : event.opensMember = true
      · rw [if_pos hopens]
        exact ⟨[], shares later, rfl⟩
      · rw [if_neg hopens, hshares]
        exact ⟨_, further, rfl⟩

-- What is noted within a member belongs to its share.
theorem shares_within {body : List Event} (hbody : ∀ event ∈ body, event.opensMember = false)
    {later : List Event} {first : List (Nat × Nat)} {further : List (List (Nat × Nat))}
    (hlater : shares later = first :: further) :
    shares (body ++ later) = (spans body ++ first) :: further := by
  induction body with
  | nil => exact hlater
  | cons event body ih =>
      rcases List.forall_mem_cons.mp hbody with ⟨hevent, hrest⟩
      rw [List.cons_append, shares, hevent, if_neg Bool.false_ne_true, ih hrest,
        List.modifyHead_cons, ← List.append_assoc]
      congr 2
      cases hspan : event.span? with
      | none => rw [spans, spans, List.filterMap_cons_none hspan]; rfl
      | some span => rw [spans, spans, List.filterMap_cons_some hspan]; rfl

-- A log in which no member begins has one share.
theorem shares_of_within {events : List Event}
    (h : ∀ event ∈ events, event.opensMember = false) : shares events = [spans events] := by
  have hnothing : shares [] = [[]] := rfl
  have hshares := shares_within h hnothing
  rw [List.append_nil, List.append_nil] at hshares
  exact hshares

/-- The shares are the chunks of the log. -/
theorem shares_flatten (events : List Event) : (shares events).flatten = spans events := by
  induction events with
  | nil => rfl
  | cons event later ih =>
      rcases shares_eq_cons later with ⟨first, further, hshares⟩
      cases hopens : event.opensMember with
      | true =>
          cases event with
          | nextMember offset => exact ih
          | _ => cases hopens
      | false =>
          have hwithin : shares ([event] ++ later) = (spans [event] ++ first) :: further :=
            shares_within (List.forall_mem_singleton.mpr hopens) hshares
          rw [List.singleton_append] at hwithin
          rw [hwithin, List.flatten_cons, List.append_assoc, ← List.flatten_cons, ← hshares, ih,
            ← spans_append, List.singleton_append]

theorem opensMember_reset (d : Decoder c) :
    ∀ event ∈ d.reset.events, event.opensMember = false := by
  rcases reset_cases d with ⟨s, memory, _, hreset⟩ | ⟨cause, memory, _, hreset⟩
  · rw [hreset]
    exact List.forall_mem_singleton.mpr rfl
  · rw [hreset]
    exact List.forall_mem_singleton.mpr rfl

theorem opensMember_ofChunk (last : Bool) (chunk : Chunk) :
    ∀ event ∈ Event.ofChunk last chunk, event.opensMember = false := by
  cases last with
  | false => exact List.forall_mem_singleton.mpr rfl
  | true => exact List.forall_mem_cons.mpr ⟨rfl, List.forall_mem_singleton.mpr rfl⟩

theorem opensMember_append {as bs : List Event} (ha : ∀ event ∈ as, event.opensMember = false)
    (hb : ∀ event ∈ bs, event.opensMember = false) :
    ∀ event ∈ as ++ bs, event.opensMember = false :=
  List.forall_mem_append.mpr ⟨ha, hb⟩

theorem opensMember_noted {noted : Event} (h : noted.opensMember = false) (d : Decoder c) :
    ∀ event ∈ noted :: d.reset.events, event.opensMember = false :=
  List.forall_mem_cons.mpr ⟨h, opensMember_reset d⟩

/-! ## Rounds of a push -/

/-- Nothing more comes out within this member: it is over and a further one follows, or there is
    nothing left to read and the session writes nothing more. -/
inductive Dry (w : Scene c Cursor σ) : Prop
  | past (finished : w.decoder.finished = true) (multiple : w.decoder.multipleMembers = true)
      (more : w.input.rest ≠ [])
  | drained (exhausted : w.input.rest = [])
      (waits : ∀ {s : S} {buffer : List UInt8} {status : Status}, w.decoder.session = some s →
        buffer ≠ [] → (c.step s w.input (.ofBytes buffer)).outcome = .ok status →
        (c.step s w.input (.ofBytes buffer)).output.front = [])

-- The session of a dry decoder writes nothing, unless it is a new one.
theorem Dry.front {alloc : Allocator σ} {w : Scene c Cursor σ} (h : Dry w) {entered : Decoder c}
    {s : S} {buffer : List UInt8} {served : σ} {stepped : Stepped S} {status : Status}
    (hran : Ran alloc w.decoder w.input w.sink [] entered s buffer served stepped)
    (houtcome : stepped.outcome = .ok status) : stepped.output.front = [] := by
  have hroom := hran.room
  rcases hran with ⟨henter, hsession, _, _, _, rfl⟩
  cases henter with
  | stay hstay =>
      cases h with
      | past hfinished hmultiple _ =>
          rw [(hstay hfinished).2] at hmultiple
          cases hmultiple
      | drained _ hwaits => exact hwaits hsession hroom houtcome

/-- What a round of a push adds to the shares: it may begin a further member, and then there may be
    a chunk; and if another round follows, then the chunk was full or the decoder is dry. -/
structure Deals (size : Nat) (w : Scene c Cursor σ) (opening body : List Event)
    (chunk? : Option (Nat × Nat)) (next? : Option (Scene c Cursor σ)) : Prop where
  opens : opening = [] ∨ ∃ offset, opening = [.nextMember offset]
  within : ∀ event ∈ body, event.opensMember = false
  tells : spans body = chunk?.toList
  fits : ∀ span ∈ chunk?, 0 < span.2 ∧ span.2 ≤ size
  dry : Dry w → opening = [] → chunk? = none
  goesOn : ∀ next ∈ next?, Dry next ∨ ∃ span ∈ chunk?, span.2 = size

/-- The round that follows, if there is one. -/
def roundNext : PushRound c σ → Option (Scene c Cursor σ)
  | .again _ next => some next
  | .done _ _ => none

section Dealing

variable {size : Nat} {w : Scene c Cursor σ}

theorem entered_opening {d entered : Decoder c} {input : Cursor} {events : List Event}
    (h : Entered d input events entered) :
    events = [] ∨ ∃ offset, events = [.nextMember offset] := by
  cases h with
  | stay _ => exact Or.inl rfl
  | member _ _ _ _ => exact Or.inr ⟨_, rfl⟩

-- A round without a chunk that is the last.
theorem deals_nothing {opening body : List Event}
    (hopening : opening = [] ∨ ∃ offset, opening = [.nextMember offset])
    (hbody : ∀ event ∈ body, event.opensMember = false) (hspans : spans body = []) :
    Deals size w opening body none none :=
  ⟨hopening, hbody, hspans, (fun _ h => by cases h), fun _ _ => rfl, fun _ h => by cases h⟩

-- A round with a chunk, which a dry decoder does not have within its member.
theorem deals_chunk (hc : c.Brimming) (hlive : w.decoder.Live) {alloc : Allocator σ}
    {opening body : List Event} {entered : Decoder c} {s : S} {buffer : List UInt8} {served : σ}
    {stepped : Stepped S} {status : Status} {next? : Option (Scene c Cursor σ)}
    (hran : Ran alloc w.decoder w.input w.sink opening entered s buffer served stepped)
    (houtcome : stepped.outcome = .ok status) (hwritten : stepped.output.InBounds)
    (hsomething : stepped.output.front ≠ []) (hbody : ∀ event ∈ body, event.opensMember = false)
    (hspans : spans body = [Chunk.span ⟨entered.outputOffset, stepped.output.front⟩])
    (hgoesOn : ∀ next ∈ next?, stepped.output.front.length < buffer.length → Dry next) :
    Deals w.decoder.bufferSize.toNat w opening body
      (some (Chunk.span ⟨entered.outputOffset, stepped.output.front⟩)) next? := by
  have hreached : c.Reached s := live_lasting.entered hran.enter hlive s hran.session
  have hsize : buffer.length = w.decoder.bufferSize.toNat :=
    hran.size.trans (congrArg BufferSize.toNat (entered_config hran.enter).2.2)
  have hle := hc.fits hreached hran.bounds hran.room hran.step houtcome hwritten
  refine ⟨entered_opening hran.enter, hbody, hspans, fun span hspan => ?_, ?_, fun next hnext => ?_⟩
  · cases hspan
    exact ⟨List.length_pos_iff.mpr hsomething, hsize ▸ hle⟩
  · rintro hdry rfl
    exact absurd (hdry.front hran houtcome) hsomething
  · rcases Nat.lt_or_eq_of_le hle with hshort | hfull
    · exact Or.inl (hgoesOn next hnext hshort)
    · exact Or.inr ⟨_, rfl, hfull.trans hsize⟩

/-- A decoder that goes on after a step that left room in its buffer is dry. -/
theorem dry_of_short (hc : c.Brimming) (hlive : w.decoder.Live) {alloc : Allocator σ}
    {opening : List Event} {entered : Decoder c} {s : S} {buffer : List UInt8} {served sink : σ}
    {stepped : Stepped S} {status : Status} {after : Decoder c}
    (hran : Ran alloc w.decoder w.input w.sink opening entered s buffer served stepped)
    (houtcome : stepped.outcome = .ok status)
    (hshort : stepped.output.front.length < buffer.length)
    (hlast : entered.isLast stepped.input status = false)
    (hsession : after.session = some stepped.session)
    (hfinished : after.finished = (entered.afterStep w.input stepped status).finished)
    (hmultiple : after.multipleMembers = entered.multipleMembers) :
    Dry (⟨after, stepped.input, sink⟩ : Scene c Cursor σ) := by
  have hreached : c.Reached s := live_lasting.entered hran.enter hlive s hran.session
  cases status with
  | progress =>
      refine .drained (hc.drains hreached hran.bounds hran.room hran.step houtcome hshort) ?_
      intro s' room status' hs' hroom hstatus'
      cases hsession.symm.trans hs'
      exact hc.waits hreached hran.bounds hran.room hran.step houtcome hshort hroom hstatus'
  | streamEnd =>
      rw [isLast, Bool.not_eq_false'] at hlast
      rcases hasFurtherMember_iff.mp hlast with ⟨hseveral, hmore⟩
      exact .past hfinished (hmultiple.trans hseveral) hmore

variable [Sink σ]

/-- Every round of a push is such a deal. -/
theorem deals_of_drive (hc : c.Brimming) (hlive : w.decoder.Live)
    (hready : w.decoder.session ≠ none) {r : PushRound c σ} (h : drive w = .ok r) :
    ∃ opening body chunk?, roundEvents r = opening ++ body ∧
      Deals w.decoder.bufferSize.toNat w opening body chunk? (roundNext r) := by
  rcases drive_cases h with ⟨events, next, hattempt, rfl⟩ | ⟨events, turn, hattempt, rfl⟩
  · have hcases := attempted_of_eq hready hattempt
    cases hcases with
    | passed hran _ _ _ _ hfurther =>
        rcases hasFurtherMember_iff.mp hfurther with ⟨hmultiple, hmore⟩
        refine ⟨events, [], none, (List.append_nil _).symm, entered_opening hran.enter,
          (fun _ h => by cases h), rfl, (fun _ h => by cases h), fun _ _ => rfl, ?_⟩
        intro next hnext
        cases hnext
        exact Or.inl (.past rfl hmultiple hmore)
  · have hcases := attempted_of_eq hready hattempt
    cases hcases with
    | spent _ _ =>
        exact ⟨[], [], none, rfl, deals_nothing (Or.inl rfl) (fun _ h => by cases h) rfl⟩
    | refused _ _ _ _ =>
        exact ⟨[.nextMember _], [.startFailed _], none, rfl, deals_nothing (Or.inr ⟨_, rfl⟩)
          (List.forall_mem_singleton.mpr rfl) rfl⟩
    | unserved henter _ =>
        exact ⟨_, _, none, rfl, deals_nothing (entered_opening henter)
          (opensMember_noted rfl _) (spans_failed _ _)⟩
    | failed hran _ _ =>
        exact ⟨_, _, none, rfl, deals_nothing (entered_opening hran.enter)
          (opensMember_noted rfl _) (spans_failed _ _)⟩
    | starved hran _ _ _ _ =>
        exact ⟨events, [], none, (List.append_nil _).symm,
          deals_nothing (entered_opening hran.enter) (fun _ h => by cases h) rfl⟩
    | closed hran _ _ _ _ _ =>
        exact ⟨events, [], none, (List.append_nil _).symm,
          deals_nothing (entered_opening hran.enter) (fun _ h => by cases h) rfl⟩
    | @filled opening entered s buffer served stepped status hran hread houtcome hwritten
        hsomething _ _ =>
        rw [takeProgress_ofChunk]
        rcases hpush : Sink.push served ⟨entered.outputOffset, stepped.output.front⟩ with
          ⟨cause | _, sink'⟩
        · rw [deliverThen_of_error hpush]
          refine ⟨opening, _, _, List.append_assoc _ _ _, deals_chunk hc hlive hran houtcome
            hwritten hsomething (opensMember_append (opensMember_ofChunk _ _)
            (opensMember_noted rfl _)) ?_ fun _ h => by cases h⟩
          rw [spans_append, spans_ofChunk]
          exact congrArg _ (spans_reset _)
        · rw [deliverThen_of_ok hpush]
          cases hlast : entered.isLast stepped.input status with
          | true =>
              exact ⟨opening, _, _, rfl, deals_chunk hc hlive hran houtcome hwritten hsomething
                (opensMember_ofChunk _ _) (spans_ofChunk _ _) fun _ h => by cases h⟩
          | false =>
              refine ⟨opening, _, _, rfl, deals_chunk hc hlive hran houtcome hwritten hsomething
                (opensMember_ofChunk _ _) (spans_ofChunk _ _) fun next hnext hshort => ?_⟩
              cases hnext
              exact dry_of_short hc hlive hran houtcome hshort hlast afterStep_session rfl
                afterStep_multipleMembers

end Dealing

/-! ## Whole pushes -/

/-- All chunks of a share are full but for the last, which is not empty. -/
structure Brimful (size : Nat) (share : List (Nat × Nat)) : Prop where
  fits : ∀ span ∈ share, 0 < span.2 ∧ span.2 ≤ size
  full : ∀ span ∈ share.dropLast, span.2 = size

theorem brimful_nil (size : Nat) : Brimful size [] :=
  ⟨(fun _ h => by cases h), fun _ h => by cases h⟩

/-- A full chunk may come before others, and any chunk may be the last. -/
theorem Brimful.cons {size : Nat} {share : List (Nat × Nat)} (h : Brimful size share)
    {span : Nat × Nat} (hfits : 0 < span.2 ∧ span.2 ≤ size) (hfull : share = [] ∨ span.2 = size) :
    Brimful size (span :: share) := by
  refine ⟨List.forall_mem_cons.mpr ⟨hfits, h.fits⟩, ?_⟩
  cases share with
  | nil =>
      intro _ hmem
      cases hmem
  | cons next later =>
      rcases hfull with hnil | hfull
      · cases hnil
      · rw [List.dropLast_cons_cons]
        exact List.forall_mem_cons.mpr ⟨hfull, h.full⟩

/-- What a deal makes of the shares of what comes after it. -/
theorem Deals.brimful {size : Nat} {w : Scene c Cursor σ} {opening body later : List Event}
    {chunk? : Option (Nat × Nat)} {next? : Option (Scene c Cursor σ)}
    (h : Deals size w opening body chunk? next?)
    (hlater : ∀ share ∈ shares later, Brimful size share)
    (hgoesOn : ∀ {first further}, shares later = first :: further →
      first = [] ∨ ∃ span ∈ chunk?, span.2 = size) :
    (∀ share ∈ shares (opening ++ body ++ later), Brimful size share) ∧
      (Dry w → ∃ further, shares (opening ++ body ++ later) = [] :: further) := by
  rcases shares_eq_cons later with ⟨first, further, hshares⟩
  rw [hshares] at hlater
  rcases List.forall_mem_cons.mp hlater with ⟨hfirst, hfurther⟩
  have hwithin : shares (body ++ later) = (chunk?.toList ++ first) :: further := by
    rw [shares_within h.within hshares, h.tells]
  have hshare : Brimful size (chunk?.toList ++ first) := by
    cases chunk? with
    | none => exact hfirst
    | some span =>
        refine hfirst.cons (h.fits span rfl) ?_
        rcases hgoesOn hshares with hnil | ⟨_, hspan, hfull⟩
        · exact Or.inl hnil
        · cases hspan
          exact Or.inr hfull
  have hall : ∀ share ∈ shares (body ++ later), Brimful size share := by
    rw [hwithin]
    exact List.forall_mem_cons.mpr ⟨hshare, hfurther⟩
  rw [List.append_assoc]
  rcases h.opens with rfl | ⟨offset, rfl⟩
  · refine ⟨hall, fun hdry => ⟨further, ?_⟩⟩
    have hnone := h.dry hdry rfl
    subst hnone
    rcases hgoesOn hshares with hnil | ⟨_, hspan, _⟩
    · rw [List.nil_append, hwithin, hnil]
      rfl
    · cases hspan
  · exact ⟨List.forall_mem_cons.mpr ⟨brimful_nil size, hall⟩, fun _ => ⟨_, rfl⟩⟩

section Pushing

variable [Sink σ]

/-- The shares of a push are brimful, and there is none after it is dry. -/
theorem brimful_of_ends (hc : c.Brimming) {size : Nat} {w : Scene c Cursor σ}
    {r : Logged Event (Turn c Cursor σ Bool)} (h : Ends (fun _ => drive) w (.ok r))
    (hready : w.decoder.session ≠ none) (hlive : w.decoder.Live)
    (hsize : w.decoder.bufferSize.toNat = size) :
    (∀ share ∈ shares r.events, Brimful size share) ∧
      (Dry w → ∃ further, shares r.events = [] :: further) := by
  induction h using Ends.ok_induction with
  | done hs =>
      rcases deals_of_drive hc hlive hready hs.of_const with ⟨opening, body, _, hevents, hdeals⟩
      rw [hsize] at hdeals
      have hnothing : ∀ share ∈ shares [], Brimful size share :=
        List.forall_mem_singleton.mpr (brimful_nil size)
      have hbrimful := hdeals.brimful hnothing fun hfirst => by
        cases hfirst
        exact Or.inl rfl
      rw [List.append_nil, ← hevents] at hbrimful
      exact hbrimful
  | @again w next events r hs _ ih =>
      have hround := hs.of_const
      rcases deals_of_drive hc hlive hready hround with ⟨opening, body, _, hevents, hdeals⟩
      have hkept := (settings_kept w.decoder).kept.drive hready ⟨rfl, rfl⟩ hround
      have hnext := ih (drive_ready hready hround) (live_lasting.kept.drive hready hlive hround)
        ((congrArg BufferSize.toNat hkept.1).trans hsize)
      rw [hsize] at hdeals
      have hevents' : events = opening ++ body := hevents
      rw [hevents']
      refine hdeals.brimful hnext.1 fun hfirst => ?_
      rcases hdeals.goesOn next rfl with hdry | hfull
      · rcases hnext.2 hdry with ⟨further, hempty⟩
        cases hempty.symm.trans hfirst
        exact Or.inl rfl
      · exact Or.inr hfull

end Pushing

/-! ## Counting chunks -/

/-- Chunks of which all are full but for the last, and so there are as many as it takes. -/
structure Packed (size : Nat) (chunks : List Chunk) : Prop where
  fits : ∀ chunk ∈ chunks, 0 < chunk.length ∧ chunk.length ≤ size
  full : ∀ chunk ∈ chunks.dropLast, chunk.length = size
  count : chunks.length = ((chunks.flatMap Chunk.data).length + size - 1) / size

/-- So many full chunks, and a last one, make up so many bytes. -/
theorem count_of_full {size : Nat} {chunks : List Chunk}
    (hfits : ∀ chunk ∈ chunks, 0 < chunk.length ∧ chunk.length ≤ size)
    (hfull : ∀ chunk ∈ chunks.dropLast, chunk.length = size) (hpos : 0 < size) :
    chunks.length = ((chunks.flatMap Chunk.data).length + size - 1) / size := by
  induction chunks with
  | nil =>
      have hnone : (([] : List Chunk).flatMap Chunk.data).length = 0 := rfl
      rw [hnone, Nat.zero_add, Nat.div_eq_of_lt (Nat.sub_lt hpos Nat.one_pos)]
      rfl
  | cons chunk later ih =>
      rcases List.forall_mem_cons.mp hfits with ⟨⟨hnonempty, hle⟩, hfits'⟩
      have htotal : ((chunk :: later).flatMap Chunk.data).length =
          chunk.length + (later.flatMap Chunk.data).length := by
        rw [List.flatMap_cons, List.length_append]
        rfl
      rw [htotal]
      cases later with
      | nil =>
          rw [List.flatMap_nil, List.length_nil, Nat.add_zero, List.length_singleton]
          symm
          rw [Nat.div_eq_iff hpos]
          omega
      | cons next more =>
          rw [List.dropLast_cons_cons] at hfull
          rcases List.forall_mem_cons.mp hfull with ⟨hchunk, hfull'⟩
          rw [List.length_cons, ih hfits' hfull', hchunk, ← Nat.add_div_left _ hpos]
          congr 1
          rcases List.forall_mem_cons.mp hfits' with ⟨⟨hnext, _⟩, _⟩
          omega

theorem packed_of_brimful {size : Nat} {chunks : List Chunk} (hpos : 0 < size)
    (h : Brimful size (chunks.map Chunk.span)) : Packed size chunks := by
  have hfits : ∀ chunk ∈ chunks, 0 < chunk.length ∧ chunk.length ≤ size :=
    fun chunk hmem => h.fits chunk.span (List.mem_map_of_mem hmem)
  have hfull : ∀ chunk ∈ chunks.dropLast, chunk.length = size := by
    intro chunk hmem
    refine h.full chunk.span ?_
    rw [← List.map_dropLast]
    exact List.mem_map_of_mem hmem
  exact ⟨hfits, hfull, count_of_full hfits hfull hpos⟩

/-- What a list is mapped to is cut into pieces, and so is the list. -/
theorem exists_pieces {α β : Type} {f : α → β} {pieces : List (List β)} {as : List α}
    (h : as.map f = pieces.flatten) :
    ∃ parts : List (List α), parts.flatten = as ∧ parts.map (List.map f) = pieces := by
  induction pieces generalizing as with
  | nil => exact ⟨[], (List.map_eq_nil_iff.mp h).symm, rfl⟩
  | cons piece later ih =>
      rw [List.flatten_cons] at h
      rcases List.map_eq_append_iff.mp h with ⟨front, back, rfl, hfront, hback⟩
      rcases ih hback with ⟨parts, rfl, hparts⟩
      exact ⟨front :: parts, rfl, by rw [List.map_cons, hfront, hparts]⟩

/-- A log in which no member begins but with its first event has all its chunks in one share. -/
theorem spans_mem_shares {events : List Event}
    (h : ∀ event ∈ events.tail, event.opensMember = false) : spans events ∈ shares events := by
  cases events with
  | nil => exact List.mem_singleton_self _
  | cons event later =>
      cases hopens : event.opensMember with
      | true =>
          cases event with
          | nextMember offset =>
              have hlater := shares_of_within h
              exact List.mem_cons_of_mem _ (hlater ▸ List.mem_singleton_self _)
          | _ => cases hopens
      | false =>
          have hall : shares (event :: later) = [spans (event :: later)] :=
            shares_of_within (List.forall_mem_cons.mpr ⟨hopens, h⟩)
          exact hall ▸ List.mem_singleton_self _

/-- Of the chunks of a push, only the last of a member is short; and if the push stays within one
    member, then only its last chunk is, and there are as many as it takes. -/
theorem only_last_short [Sink σ] (hc : c.Brimming) {d : Decoder c} (hd : Reachable d) {fuel : Nat}
    {input : List UInt8} {sink : σ} {r : Report c σ}
    (h : (Call.push input sink).report fuel d = .ok r) :
    (∃ members : List (List Chunk), members.flatten = r.chunks ∧
      members.map (List.map Chunk.span) = shares r.events ∧
      ∀ member ∈ members, Packed d.bufferSize.toNat member) ∧
    ((∀ event ∈ r.events.tail, event.opensMember = false) →
      Packed d.bufferSize.toNat r.chunks) := by
  rcases map_eq_ok h with ⟨q, hpush, rfl⟩
  have hchunks : q.result.sink.handed.map Chunk.span = spans q.events := (attests_push hpush).2
  have hbrimful : ∀ share ∈ shares q.events, Brimful d.bufferSize.toNat share := by
    by_cases hready : d.session = none
    · cases push_of_not_ready hready hpush
      exact List.forall_mem_singleton.mpr (brimful_nil _)
    · exact (brimful_of_ends hc (ends_of_push hready hpush) hready hd.live rfl).1
  constructor
  · rcases exists_pieces (hchunks.trans (shares_flatten q.events).symm) with
      ⟨members, hflatten, hmembers⟩
    refine ⟨members, hflatten, hmembers, fun member hmem => ?_⟩
    refine packed_of_brimful d.bufferSize.pos (hbrimful _ ?_)
    rw [← hmembers]
    exact List.mem_map_of_mem hmem
  · intro hwithin
    refine packed_of_brimful d.bufferSize.pos (hbrimful _ ?_)
    show q.result.sink.handed.map Chunk.span ∈ _
    rw [hchunks]
    exact spans_mem_shares hwithin

/-! ## Full chunks of a codec that copies -/

theorem copier_brimming : copier.Brimming where
  fits := by
    rintro ⟨total, ended⟩ input buffer stepped status _ _ _ hstep _ _
    subst hstep
    cases ended with
    | true => exact Nat.zero_le _
    | false =>
        have hle : ((upToZero input.rest).take buffer.length).length ≤ buffer.length := by
          rw [List.length_take]
          exact Nat.min_le_left _ _
        rw [copier_output, (fill_ofBytes hle).2]
        exact hle
  drains := by
    rintro ⟨total, ended⟩ input buffer stepped _ _ _ hstep houtcome hshort
    cases ended with
    | true =>
        subst hstep
        cases houtcome
    | false =>
        rcases copied hstep with ⟨data, _, _, hfront, _, ⟨hover, _⟩ | ⟨_, _, _, _, hdrains⟩⟩
        · cases houtcome.symm.trans hover
        · exact hdrains (hfront ▸ hshort)
  waits := by
    rintro ⟨total, ended⟩ input buffer room stepped _ _ _ _ hstep houtcome hshort _ _
    cases ended with
    | true =>
        subst hstep
        cases houtcome
    | false =>
        rcases copied hstep with ⟨data, _, _, hfront, _, ⟨hover, _⟩ | ⟨_, hopen, _, _, hdrains⟩⟩
        · cases houtcome.symm.trans hover
        · -- There is nothing left to copy.
          have hrest : stepped.input.rest = [] := hdrains (hfront ▸ hshort)
          have hsession : stepped.session = (stepped.session.1, false) := by rw [← hopen]
          have hnothing : (upToZero stepped.input.rest).take room.length = [] := by
            rw [hrest]
            exact List.take_nil
          rw [hsession, copier_output, hnothing]
          exact (fill_ofBytes (Nat.zero_le _)).2

/-- Three bytes of one member and one of another, and then five of the first alone, into buffers of
    two. -/
theorem only_last_short_copier :
    copier.Brimming ∧ Reachable (created copier () ⟨2, by decide⟩ true) ∧
    (∃ r : Report copier (Array Chunk), (Call.push [5, 6, 7, 0, 8] #[]).report 9
        (created copier () ⟨2, by decide⟩ true) = .ok r ∧
      r.chunks = [⟨0, [5, 6]⟩, ⟨2, [7]⟩, ⟨3, [8]⟩] ∧
      ∃ members : List (List Chunk), members.flatten = r.chunks ∧
        members.map (List.map Chunk.span) = [[(0, 2), (2, 1)], [(3, 1)]] ∧
        ∀ member ∈ members, Packed 2 member) ∧
    ∃ r : Report copier (Array Chunk), (Call.push [5, 6, 7, 8, 9] #[]).report 9
        (created copier () ⟨2, by decide⟩ true) = .ok r ∧
      (∀ event ∈ r.events.tail, event.opensMember = false) ∧ r.chunks.length = 3 ∧
      Packed 2 r.chunks := by
  have hreached : Reachable (created copier () ⟨2, by decide⟩ true) := reachable_created () _ _
  have hreturns : ∃ r : Report copier (Array Chunk), (Call.push [5, 6, 7, 0, 8] #[]).report 9
      (created copier () ⟨2, by decide⟩ true) = .ok r ∧
      r.chunks = [⟨0, [5, 6]⟩, ⟨2, [7]⟩, ⟨3, [8]⟩] ∧
      shares r.events = [[(0, 2), (2, 1)], [(3, 1)]] := ⟨_, rfl, rfl, rfl⟩
  have hsingle : ∃ r : Report copier (Array Chunk), (Call.push [5, 6, 7, 8, 9] #[]).report 9
      (created copier () ⟨2, by decide⟩ true) = .ok r ∧
      r.events = [.chunkProduced 0 2, .chunkProduced 2 2, .chunkProduced 4 1] ∧
      r.chunks.length = 3 := ⟨_, rfl, rfl, rfl⟩
  rcases hreturns with ⟨r, hr, hchunks, hshares⟩
  rcases hsingle with ⟨q, hq, hevents, hcount⟩
  rcases (only_last_short copier_brimming hreached hr).1 with ⟨members, hwhole, hlogged, hpacked⟩
  have hwithin : ∀ event ∈ q.events.tail, event.opensMember = false := by
    rw [hevents]
    decide
  exact ⟨copier_brimming, hreached,
    ⟨r, hr, hchunks, members, hwhole, hlogged.trans hshares, hpacked⟩,
    ⟨q, hq, hwithin, hcount, (only_last_short copier_brimming hreached hq).2 hwithin⟩⟩

end Decompression
