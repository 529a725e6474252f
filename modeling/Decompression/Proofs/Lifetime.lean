import Decompression.Proofs.Invariant

/-!
# The Lifetimes of Sessions

A primitive has to be told when it starts a session and when it ends one, and a session
that is forgotten is a leak. `Codec.counted` is the same codec with a log of this: its
sessions are numbered in the order in which they are started, and the memory holds what
became of them. `counting` says that the log changes nothing.

In a ledger, sessions are started one after the other, and each is ended before the next
one is started. The log of every decoder is one, and its live session is the one that has
not been ended; everything else about the log follows from that.

## Main definitions

* `Lifetime`: A session was started, or one was ended.
* `Codec.counted`: The codec with a log of its sessions.
* `Ledger`: A log of sessions that are started one after the other.
* `Orderly`: What is expected of a log.

## Theorems

* `counting`: The log changes nothing.
* `orderly_of_ledger`: A ledger is orderly.
* `ledger_lasting`: Whatever a decoder does, its log is a ledger.
* `sessions_accounted`: Over every history, every session is ended once, and before the
  next one is started.
-/

namespace Decompression

open Decoder

variable {S M : Type}

/-! ## The log -/

/-- A session was started, or one was ended. -/
inductive Lifetime where
  | begins (number : Nat)
  | ends (number : Nat)
  deriving DecidableEq

/-- Sessions were started so many times. -/
def begun (log : List Lifetime) : Nat :=
  log.countP fun
    | .begins _ => true
    | .ends _ => false

/-- Sessions were ended so many times. -/
def ended (log : List Lifetime) : Nat :=
  log.countP fun
    | .begins _ => false
    | .ends _ => true

/-- The codec, with a log of the sessions that were started and ended. -/
def Codec.counted (c : Codec S M) : Codec (S × Nat) (M × List Lifetime) where
  name := c.name
  start m :=
    match c.start m.1 with
    | (.ok s, memory) => (.ok (s, begun m.2), (memory, m.2 ++ [.begins (begun m.2)]))
    | (.error cause, memory) => (.error cause, (memory, m.2))
  stop s m := (c.stop s.1 m.1, m.2 ++ [.ends s.2])
  step s input output :=
    let stepped := c.step s.1 input output
    ⟨(stepped.session, s.2), stepped.input, stepped.output, stepped.outcome⟩
  totalOut s := c.totalOut s.1

variable {c : Codec S M}

theorem counted_start_of_ok {m : M × List Lifetime} {s : S} {memory : M}
    (h : c.start m.1 = (.ok s, memory)) :
    c.counted.start m = (.ok (s, begun m.2), (memory, m.2 ++ [.begins (begun m.2)])) := by
  simp only [Codec.counted, h]

theorem counted_start_of_error {m : M × List Lifetime} {cause : IoError} {memory : M}
    (h : c.start m.1 = (.error cause, memory)) :
    c.counted.start m = (.error cause, (memory, m.2)) := by
  simp only [Codec.counted, h]

/-- A session that is started is logged under the next number. -/
theorem counted_start_inv {m m' : M × List Lifetime} {s : S × Nat}
    (h : c.counted.start m = (.ok s, m')) :
    s.2 = begun m.2 ∧ m'.2 = m.2 ++ [.begins (begun m.2)] := by
  rcases hstart : c.start m.1 with ⟨cause | s', memory⟩
  · rw [counted_start_of_error hstart] at h
    cases h
  · rw [counted_start_of_ok hstart] at h
    cases h
    exact ⟨rfl, rfl⟩

theorem counted_start_error_inv {m m' : M × List Lifetime} {cause : IoError}
    (h : c.counted.start m = (.error cause, m')) : m'.2 = m.2 := by
  rcases hstart : c.start m.1 with ⟨cause' | s', memory⟩
  · rw [counted_start_of_error hstart] at h
    cases h
    rfl
  · rw [counted_start_of_ok hstart] at h
    cases h

/-- A codec and its log: the log changes nothing. -/
def counting (c : Codec S M) : Likeness c.counted c where
  session s₁ s₂ := s₁.1 = s₂
  memory m₁ m₂ := m₁.1 = m₂
  start := by
    rintro m₁ m₂ rfl
    rcases h : c.start m₁.1 with ⟨cause | s, memory⟩
    · exact Or.inr ⟨cause, _, _, counted_start_of_error h, rfl, rfl⟩
    · exact Or.inl ⟨_, _, _, _, counted_start_of_ok h, rfl, rfl, rfl⟩
  stop := by
    rintro s₁ s₂ m₁ m₂ rfl rfl
    rfl
  step := by
    rintro s₁ s₂ rfl input buffer _ _
    exact ⟨rfl, rfl, rfl, rfl⟩
  total := by
    rintro s₁ s₂ rfl
    rfl

/-! ## Ledgers -/

/-- Sessions are started one after the other, and each is ended before the next one is
    started; the last one may be live. -/
inductive Ledger : List Lifetime → Option Nat → Prop
  | empty : Ledger [] none
  | begins {log : List Lifetime} (before : Ledger log none) :
      Ledger (log ++ [.begins (begun log)]) (some (begun log))
  | ends {log : List Lifetime} {number : Nat} (before : Ledger log (some number)) :
      Ledger (log ++ [.ends number]) none

/-- What is expected of a log. -/
structure Orderly (log : List Lifetime) (ready : Bool) : Prop where
  -- As many sessions are live as there should be.
  balance : begun log = ended log + ready.toNat
  -- When a session is started it is a new one, and those before it have been ended.
  alone : ∀ earlier number, earlier ++ [.begins number] <+: log → .begins number ∉ earlier ∧
    ∀ other, .begins other ∈ earlier → .ends other ∈ earlier
  -- When a session is ended it has been started, and it has not been ended before.
  once : ∀ earlier number, earlier ++ [.ends number] <+: log →
    .begins number ∈ earlier ∧ .ends number ∉ earlier

section Ledgers

variable {log : List Lifetime} {live : Option Nat}

theorem begun_append (as bs : List Lifetime) : begun (as ++ bs) = begun as + begun bs :=
  List.countP_append

theorem ended_append (as bs : List Lifetime) : ended (as ++ bs) = ended as + ended bs :=
  List.countP_append

theorem Ledger.balance (h : Ledger log live) : begun log = ended log + live.isSome.toNat := by
  induction h with
  | empty => rfl
  | begins _ ih =>
      rw [begun_append, ended_append, ih]
      rfl
  | ends _ ih =>
      rw [begun_append, ended_append, ih]
      rfl

-- Numbers are given out in order.
theorem Ledger.number_lt (h : Ledger log live) {number : Nat} (hmem : .begins number ∈ log) :
    number < begun log := by
  induction h with
  | empty => cases hmem
  | begins _ ih =>
      rw [begun_append]
      rcases List.mem_append.mp hmem with hin | hlast
      · exact Nat.lt_of_lt_of_le (ih hin) (Nat.le_add_right _ _)
      · cases List.mem_singleton.mp hlast
        exact Nat.lt_succ_self _
  | ends _ ih =>
      rw [begun_append]
      rcases List.mem_append.mp hmem with hin | hlast
      · exact ih hin
      · cases List.mem_singleton.mp hlast

/-- A session that was started is live, or it has been ended. -/
theorem Ledger.ends_or_live (h : Ledger log live) {number : Nat} (hmem : .begins number ∈ log) :
    .ends number ∈ log ∨ live = some number := by
  induction h with
  | empty => cases hmem
  | begins _ ih =>
      rcases List.mem_append.mp hmem with hin | hlast
      · rcases ih hin with hended | hlive
        · exact Or.inl (List.mem_append_left _ hended)
        · cases hlive
      · cases List.mem_singleton.mp hlast
        exact Or.inr rfl
  | ends _ ih =>
      rcases List.mem_append.mp hmem with hin | hlast
      · rcases ih hin with hended | hlive
        · exact Or.inl (List.mem_append_left _ hended)
        · cases hlive
          exact Or.inl (List.mem_append_right _ (List.mem_singleton_self _))
      · cases List.mem_singleton.mp hlast

/-- The live session was started. -/
theorem Ledger.live_begun {number : Nat} (h : Ledger log (some number)) : .begins number ∈ log := by
  cases h with
  | begins _ => exact List.mem_append_right _ (List.mem_singleton_self _)

-- Only sessions that were started are ended.
theorem Ledger.ends_begun (h : Ledger log live) {number : Nat} (hmem : .ends number ∈ log) :
    .begins number ∈ log := by
  induction h with
  | empty => cases hmem
  | begins _ ih =>
      rcases List.mem_append.mp hmem with hin | hlast
      · exact List.mem_append_left _ (ih hin)
      · cases List.mem_singleton.mp hlast
  | ends before ih =>
      rcases List.mem_append.mp hmem with hin | hlast
      · exact List.mem_append_left _ (ih hin)
      · cases List.mem_singleton.mp hlast
        exact List.mem_append_left _ before.live_begun

/-- The live session has not been ended. -/
theorem Ledger.live_not_ended {number : Nat} (h : Ledger log (some number)) :
    .ends number ∉ log := by
  cases h with
  | begins before =>
      intro hmem
      rcases List.mem_append.mp hmem with hin | hlast
      · exact absurd (before.number_lt (before.ends_begun hin)) (Nat.lt_irrefl _)
      · cases List.mem_singleton.mp hlast

/-- A ledger is orderly. -/
theorem orderly_of_ledger (h : Ledger log live) : Orderly log live.isSome where
  balance := h.balance
  alone := by
    induction h with
    | empty =>
        intro earlier number hprefix
        exact absurd (List.prefix_nil.mp hprefix) (List.append_ne_nil_of_right_ne_nil _ (by simp))
    | begins before ih =>
        intro earlier number hprefix
        rcases List.prefix_concat_iff.mp hprefix with heq | hbefore
        · rcases List.append_inj' heq rfl with ⟨rfl, hlast⟩
          cases hlast
          refine ⟨fun hmem => absurd (before.number_lt hmem) (Nat.lt_irrefl _), ?_⟩
          intro other hmem
          rcases before.ends_or_live hmem with hended | hlive
          · exact hended
          · cases hlive
        · exact ih earlier number hbefore
    | ends before ih =>
        intro earlier number hprefix
        rcases List.prefix_concat_iff.mp hprefix with heq | hbefore
        · cases (List.append_inj' heq rfl).2
        · exact ih earlier number hbefore
  once := by
    induction h with
    | empty =>
        intro earlier number hprefix
        exact absurd (List.prefix_nil.mp hprefix) (List.append_ne_nil_of_right_ne_nil _ (by simp))
    | begins before ih =>
        intro earlier number hprefix
        rcases List.prefix_concat_iff.mp hprefix with heq | hbefore
        · cases (List.append_inj' heq rfl).2
        · exact ih earlier number hbefore
    | ends before ih =>
        intro earlier number hprefix
        rcases List.prefix_concat_iff.mp hprefix with heq | hbefore
        · rcases List.append_inj' heq rfl with ⟨rfl, hlast⟩
          cases hlast
          exact ⟨before.live_begun, before.live_not_ended⟩
        · exact ih earlier number hbefore

end Ledgers

/-! ## The log of a decoder -/

namespace Decoder

/-- The number of the live session. -/
def liveNumber (d : Decoder c.counted) : Option Nat :=
  d.session.map Prod.snd

/-- The log is a ledger with the session of the decoder as the live one. -/
def Accounted (d : Decoder c.counted) : Prop :=
  Ledger d.memory.2 d.liveNumber

/-- Ending the session completes the log. -/
theorem Accounted.retire {d : Decoder c.counted} (h : d.Accounted) : Ledger d.retire.2 none := by
  unfold Accounted liveNumber at h
  cases hs : d.session with
  | none =>
      rw [hs] at h
      rw [retire_of_none hs]
      exact h
  | some s =>
      rw [hs] at h
      rw [retire_of_some hs]
      exact .ends h

theorem Accounted.orderly {d : Decoder c.counted} (h : d.Accounted) :
    Orderly d.memory.2 d.isReady := by
  have hready : d.liveNumber.isSome = d.isReady := Option.isSome_map
  rw [← hready]
  exact orderly_of_ledger h

/-- A session that takes the place of another one is accounted for. -/
theorem Accounted.started {d : Decoder c.counted} (h : d.Accounted) (offset : Nat)
    {s : S × Nat} {memory : M × List Lifetime}
    (hstart : c.counted.start d.retire = (.ok s, memory)) :
    (d.startedAt offset s memory).Accounted := by
  rcases counted_start_inv hstart with ⟨hnumber, hlog⟩
  show Ledger memory.2 (some s.2)
  rw [hnumber, hlog]
  exact .begins h.retire

theorem Accounted.refused {d : Decoder c.counted} (h : d.Accounted) (offset : Nat)
    {cause : IoError} {memory : M × List Lifetime}
    (hstart : c.counted.start d.retire = (.error cause, memory)) :
    (d.refusedAt offset memory).Accounted := by
  show Ledger memory.2 none
  rw [counted_start_error_inv hstart]
  exact h.retire

-- A session keeps its number.
theorem Accounted.returned {d : Decoder c.counted} (h : d.Accounted) {s : S × Nat}
    (hs : d.session = some s) {input output : Cursor} {stepped : Stepped (S × Nat)}
    (hstep : c.counted.step s input output = stepped) (after : Cursor) :
    (d.returnSession stepped.session input after).Accounted := by
  subst hstep
  unfold Accounted liveNumber at h
  rw [hs] at h
  exact h

end Decoder

/-- Whatever a decoder does, its log is a ledger. -/
theorem accounted_lasting : Lasting (Decoder.Accounted (c := c)) where
  started offset hd hstart := hd.started offset hstart
  refused offset hd hstart := hd.refused offset hstart
  stepped := by
    intro d s input buffer stepped status hd hs _ _ hstep _
    cases status <;> exact hd.returned hs hstep stepped.input
  failed := by
    intro d s input buffer stepped error hd hs _ _ hstep _
    have hreturned := hd.returned hs hstep stepped.input
    rcases reset_cases (d.returnSession stepped.session input stepped.input) with
      ⟨s', memory, hstart, hreset⟩ | ⟨cause, memory, hstart, hreset⟩
    · rw [hreset]
      exact hreturned.started 0 hstart
    · rw [hreset]
      exact hreturned.refused 0 hstart
  moved _ hd := hd
  ended := by
    intro d hd
    rw [endSession_eq]
    exact hd.retire
  resized _ hd := hd
  configured _ hd := hd

/-- Over every history, a decoder with a session has started one session more than it has ended,
    and one without a session as many; every session is ended once, before the next one is
    started; and when the decoder is gone all of them have been ended. -/
theorem sessions_accounted {σ : Type} [Sink σ] {fuel : Nat} {memory : M} {calls : List (Call σ)}
    {records : List (Record c)} (h : history fuel (idle c memory) calls = .ok records) :
    ∃ counted, history fuel (idle c.counted (memory, [])) calls = .ok counted ∧
      Abreast (RecordAlike (counting c)) counted records ∧
      ∀ d ∈ idle c.counted (memory, []) :: counted.map Record.after,
        Orderly d.memory.2 d.isReady ∧ Orderly d.retire.2 false := by
  have hidle : (counting c).Shifted 0 (idle c.counted (memory, [])) (idle c memory) :=
    ⟨rfl, .none, rfl, rfl, rfl, rfl, rfl, rfl⟩
  have halike := history_alike fuel calls hidle
  rw [h] at halike
  rcases halike.of_ok with ⟨counted, hcounted, hrecords⟩
  have hstart : (idle c.counted (memory, [])).Accounted := Ledger.empty
  have hall : ∀ d ∈ idle c.counted (memory, []) :: counted.map Record.after, d.Accounted := by
    intro d hmem
    rcases List.mem_cons.mp hmem with rfl | hmem
    · exact hstart
    · rcases List.mem_map.mp hmem with ⟨r, hr, rfl⟩
      exact (accounted_lasting.history hstart hcounted r hr).2
  refine ⟨counted, hcounted, hrecords, fun d hmem => ?_⟩
  exact ⟨(hall d hmem).orderly, orderly_of_ledger (hall d hmem).retire⟩

/-- Three sessions are started, for two members and after a reset, and a fourth is refused. -/
theorem sessions_accounted_rationed : ∃ records counted,
    history 9 (idle copier.rationed ((), 3)) [.reset, .setMultipleMembers true,
      .setBufferSize ⟨2, by decide⟩, .push [5, 0, 6] (#[] : Array Chunk), .reset, .push [7] #[],
      .finish, .push [8] #[], .release] = .ok records ∧
    history 9 (idle copier.rationed.counted (((), 3), [])) [.reset, .setMultipleMembers true,
      .setBufferSize ⟨2, by decide⟩, .push [5, 0, 6] (#[] : Array Chunk), .reset, .push [7] #[],
      .finish, .push [8] #[], .release] = .ok counted ∧
    ∀ r ∈ counted, Orderly r.after.memory.2 r.after.isReady ∧ Orderly r.after.retire.2 false := by
  have hreturns : ∃ records, history 9 (idle copier.rationed ((), 3)) [.reset,
      .setMultipleMembers true, .setBufferSize ⟨2, by decide⟩,
      .push [5, 0, 6] (#[] : Array Chunk), .reset, .push [7] #[], .finish, .push [8] #[],
      .release] = .ok records := ⟨_, rfl⟩
  rcases hreturns with ⟨records, hrecords⟩
  rcases sessions_accounted hrecords with ⟨counted, hcounted, _, horderly⟩
  refine ⟨records, counted, hrecords, hcounted, fun r hr => ?_⟩
  exact horderly r.after (List.mem_cons_of_mem _ (List.mem_map_of_mem hr))

end Decompression
