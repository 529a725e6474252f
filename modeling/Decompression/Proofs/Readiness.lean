import Decompression.Proofs.Failure
import Decompression.Proofs.Lifetime

/-!
# Decoders without a Session

A decoder without a session refuses to decode: it says so, and leaves everything as it is.
A call can fail before it needs a session, though. A reader may fail, or the input may be
over while the last session had read only some of its stream, which is known from flags that
outlive the session. These failures end like all others, in a reset, and so the decoder has a
session again that nobody asked for.

`Call.mishap?` is the failure that a call meets in this way, and there is no other way for a
decoder to get a session back than to be reset.

## Main definitions

* `Reader.calm`: A reader that is no longer interrupted.
* `Call.configure`: The decoder, with the setting that a call makes.
* `Call.mishap?`: The failure that a call meets without a session.
* `Unmoved`: A call without effect.
* `Revived`: A call that resets the decoder.

## Theorems

* `readAll_of_unready`: Decoding from a reader without a session.
* `report_of_unready`: Every call but a reset has no effect, or it meets a failure.
* `unready_until_mishap`: The same, for many calls.
* `readiness_regained`: Two decoders that get a session back.
-/

namespace Decompression

open Decoder Loop

variable {S M : Type} {c : Codec S M} {σ : Type}

/-! ## Readers that were interrupted -/

/-- The reader, once it is no longer interrupted. -/
def Reader.calm (r : Reader) : Reader :=
  ⟨r.items.dropWhile ReadItem.interrupts⟩

theorem calm_of_interrupts {item : ReadItem} (h : item.interrupts = true) (rest : List ReadItem) :
    (⟨item :: rest⟩ : Reader).calm = Reader.calm ⟨rest⟩ := by
  rw [Reader.calm, List.dropWhile_cons_of_pos h]
  rfl

theorem calm_of_not_interrupts {item : ReadItem} (h : item.interrupts = false)
    (rest : List ReadItem) : (⟨item :: rest⟩ : Reader).calm = ⟨item :: rest⟩ := by
  rw [Reader.calm, List.dropWhile_cons_of_neg (by rw [h]; exact Bool.false_ne_true)]

-- What a calm reader fails for is not that it was interrupted.
theorem kind_of_calm {reader : Reader} {cause : IoError} {rest : List ReadItem}
    (h : reader.calm.items = .fail cause :: rest) : cause.kind ≠ .interrupted := by
  intro hkind
  have hhead := List.head?_dropWhile_not ReadItem.interrupts reader.items
  have hitems : reader.items.dropWhile ReadItem.interrupts = .fail cause :: rest := h
  simp only [hitems, List.head?_cons, ReadItem.interrupts, hkind, decide_true,
    Bool.true_eq_false] at hhead

/-! ## What a call does without a session -/

/-- The call asks for a session. -/
def Call.resets : Call σ → Bool
  | .reset => true
  | _ => false

/-- How many things a reader comes to in the course of the call. -/
def Call.span : Call σ → Nat
  | .readAll reader _ => reader.items.length
  | _ => 0

/-- The decoder, with the setting that the call makes. -/
def Call.configure (d : Decoder c) : Call σ → Decoder c
  | .setBufferSize size => { d with bufferSize := size }
  | .setMultipleMembers multiple => { d with multipleMembers := multiple }
  | _ => d

/-- The failure at the end of the input, if the last stream has begun and is not over. -/
def Decoder.truncation? (d : Decoder c) : Option DecodeError :=
  if d.isPending then some (.truncated d.outputOffset) else none

/-- The failure that the call meets before it needs a session. -/
def Call.mishap? (d : Decoder c) : Call σ → Option DecodeError
  | .finish => d.truncation?
  | .readAll reader _ =>
    match reader.calm.items with
    | .fail cause :: _ => some (.input cause)
    | .data (_ :: _) :: _ => none
    -- An empty buffer is the end of the input
    | .data [] :: _ => d.truncation?
    | [] => d.truncation?
  | _ => none

/-- The decoders differ in their settings only. -/
def Decoder.Resembles (d e : Decoder c) : Prop :=
  e = { d with bufferSize := e.bufferSize, multipleMembers := e.multipleMembers }

/-- The call has no effect, but for the setting that it makes: no session is started, nothing is
    read, and nothing is handed out. -/
structure Unmoved (d : Decoder c) (call : Call σ) (r : Report c σ) : Prop where
  before : d.Resembles r.before
  -- What the codec remembers is part of the decoder.
  after : r.after = call.configure r.before
  untouched : (r.left, r.sink) = call.untouched
  chunks : r.chunks = []
  events : ∀ event ∈ r.events, event = .notReady
  answer : ∀ error, r.answer = .error error → error = .notReady

/-- The call fails and resets the decoder: the codec is asked for a session. -/
structure Revived (d : Decoder c) (error : DecodeError) (r : Report c σ) : Prop where
  before : d.Resembles r.before
  answer : r.answer = .error error
  after : r.after = created c d.memory r.before.bufferSize r.before.multipleMembers
  events : r.events = .failed error :: r.before.reset.events
  chunks : r.chunks = []
  calls : r.calls = []

section Settings

variable {d e : Decoder c}

theorem resembles_refl (d : Decoder c) : d.Resembles d :=
  rfl

theorem Decoder.Resembles.configure (h : d.Resembles e) (call : Call σ) :
    d.Resembles (call.configure e) := by
  unfold Decoder.Resembles at h ⊢
  cases call with
  | setBufferSize size => exact congrArg (fun e : Decoder c => { e with bufferSize := size }) h
  | setMultipleMembers multiple =>
      exact congrArg (fun e : Decoder c => { e with multipleMembers := multiple }) h
  | _ => exact h

theorem Decoder.Resembles.session (h : d.Resembles e) : e.session = d.session :=
  Eq.trans (congrArg (fun e : Decoder c => e.session) h) rfl

theorem Decoder.Resembles.memory (h : d.Resembles e) : e.memory = d.memory :=
  Eq.trans (congrArg (fun e : Decoder c => e.memory) h) rfl

-- The settings have no part in what a call meets without a session.
theorem Decoder.Resembles.mishap (h : d.Resembles e) (call : Call σ) :
    call.mishap? e = call.mishap? d := by
  have htruncation : e.truncation? = d.truncation? :=
    Eq.trans (congrArg (fun e : Decoder c => e.truncation?) h) rfl
  cases call with
  | finish => exact htruncation
  | readAll reader sink =>
      simp only [Call.mishap?, htruncation]
  | _ => rfl

end Settings

variable [Sink σ]

theorem push_of_unready {d : Decoder c} (hd : d.session = none) (fuel : Nat) (input : List UInt8)
    (sink : σ) : d.push (fuel + 1) input sink =
      .ok ⟨[.notReady], ⟨⟨d, .ofBytes input, sink⟩, .error .notReady⟩⟩ := by
  refine run_succ_done ?_ fuel
  rw [pushRound_eq, step_of_not_ready hd]
  rfl

/-- Being interrupted is passed over. -/
theorem run_calm (fuel : Nat) (d : Decoder c) (sink : σ) {items : List ReadItem} {n : Nat}
    (hn : items.length < n) : ∃ k, run (readRound fuel) n ⟨d, ⟨items⟩, sink⟩ =
      run (readRound fuel) (k + 1) ⟨d, Reader.calm ⟨items⟩, sink⟩ := by
  obtain ⟨n, rfl⟩ : ∃ k, n = k + 1 := Nat.exists_eq_succ_of_ne_zero (by omega)
  induction items generalizing n with
  | nil => exact ⟨n, rfl⟩
  | cons item rest ih =>
      cases hitem : item.interrupts with
      | false => exact ⟨n, by rw [calm_of_not_interrupts hitem]⟩
      | true =>
          rw [List.length_cons] at hn
          obtain ⟨n, rfl⟩ : ∃ k, n = k + 1 := Nat.exists_eq_succ_of_ne_zero (by omega)
          cases item with
          | data bytes => cases hitem
          | fail cause =>
              have hround : readRound fuel ⟨d, ⟨.fail cause :: rest⟩, sink⟩ =
                  .ok (.again [] ⟨d, ⟨rest⟩, sink⟩) := by
                rw [readRound_of_fail rfl, if_pos (of_decide_eq_true hitem)]
              rw [run_succ_again hround, calm_of_interrupts hitem]
              rcases ih n (by omega) with ⟨k, hk⟩
              refine ⟨k, ?_⟩
              rw [hk]
              cases run (readRound fuel) (k + 1) ⟨d, Reader.calm ⟨rest⟩, sink⟩ <;> rfl

/-- Decoding from a reader without a session: the first thing that the reader comes to is the
    last one that it is asked for. -/
theorem readAll_of_unready {d : Decoder c} (hd : d.session = none) {reader : Reader} {fuel : Nat}
    (hfuel : reader.items.length < fuel) (sink : σ) :
    d.readAll fuel reader sink = .ok (
      match reader.calm.items with
      | .fail cause :: rest =>
        ⟨.failed (.input cause) :: d.reset.events,
          ⟨⟨d.reset.decoder, ⟨rest⟩, sink⟩, .error (.input cause)⟩⟩
      | .data (_ :: _) :: _ => ⟨[.notReady], ⟨⟨d, reader.calm, sink⟩, .error .notReady⟩⟩
      | .data [] :: _ =>
        ⟨d.finish.events, ⟨⟨d.finish.decoder, reader.calm, sink⟩, d.finish.result⟩⟩
      | [] => ⟨d.finish.events, ⟨⟨d.finish.decoder, reader.calm, sink⟩, d.finish.result⟩⟩) := by
  rcases run_calm fuel d sink hfuel with ⟨k, hk⟩
  rw [readAll, hk]
  have hkind := @kind_of_calm reader
  generalize reader.calm = shown at hkind ⊢
  rcases shown with ⟨_ | ⟨(_ | ⟨b, bs⟩) | cause, rest⟩⟩
  · exact run_succ_done (readRound_of_end rfl) k
  · exact run_succ_done (readRound_of_end rfl) k
  · refine run_succ_done ?_ k
    obtain ⟨fuel, rfl⟩ : ∃ n, fuel = n + 1 := Nat.exists_eq_succ_of_ne_zero (by omega)
    rw [readRound_of_data rfl (List.cons_ne_nil b bs), push_of_unready hd]
    rfl
  · refine run_succ_done ?_ k
    rw [readRound_of_fail rfl, if_neg (hkind rfl)]
    rfl

/-- At the end of the input a decoder without a session is left as it is, or it is reset because
    of a stream that its last session has not read to the end. -/
theorem finish_of_unready (d : Decoder c) :
    (d.truncation? = none ∧ d.finish = ⟨d, [], .ok ()⟩) ∨
    ∃ error, d.truncation? = some error ∧ d.finish = d.fail error := by
  unfold truncation?
  cases hpending : d.isPending with
  | false => exact Or.inl ⟨rfl, finish_of_not_pending hpending⟩
  | true => exact Or.inr ⟨_, rfl, finish_of_pending hpending⟩

/-- Without a session every call but a reset has no effect, or it meets a failure and resets the
    decoder. -/
theorem report_of_unready {d : Decoder c} (hd : d.session = none) {call : Call σ} {fuel : Nat}
    (hcall : call.resets = false) (hfuel : call.span < fuel) :
    ∃ r, call.report fuel d = .ok r ∧ r.before = d ∧
      match call.mishap? d with
      | none => Unmoved d call r
      | some error => Revived d error r := by
  have hready : d.isReady = false := by
    rw [isReady, hd]
    rfl
  have hcreated : d.reset.decoder = created c d.memory d.bufferSize d.multipleMembers := by
    rw [reset_eq_created, retire_of_none hd]
  have hnone : ∀ event, event ∈ ([] : List Event) → event = .notReady := fun event hmem =>
    absurd hmem List.not_mem_nil
  have hrefusal : ∀ event, event ∈ [Event.notReady] → event = .notReady := fun event hmem =>
    List.mem_singleton.mp hmem
  cases call with
  | push input sink =>
      obtain ⟨fuel, rfl⟩ : ∃ n, fuel = n + 1 := Nat.exists_eq_succ_of_ne_zero (by omega)
      rw [Call.report, push_of_unready hd]
      refine ⟨_, rfl, rfl, rfl, rfl, rfl, rfl, hrefusal, ?_⟩
      exact fun error herror => (Except.error.inj herror).symm
  | next input =>
      rw [Call.report, next, step_of_not_ready hd]
      refine ⟨_, rfl, rfl, rfl, rfl, rfl, rfl, hrefusal, ?_⟩
      exact fun error herror => (Except.error.inj herror).symm
  | readAll reader sink =>
      rw [Call.report, readAll_of_unready hd hfuel]
      refine ⟨_, rfl, rfl, ?_⟩
      simp only [Call.mishap?]
      have huntouched : Call.untouched (.readAll reader sink) =
          (.reader reader.calm, some (.ofSink sink)) := rfl
      generalize reader.calm = shown at huntouched ⊢
      have hend : ∀ {r : Report c σ}, r = ⟨.ofTurn d ⟨d.finish.events,
            ⟨⟨d.finish.decoder, shown, Recorder.ofSink sink⟩, d.finish.result⟩⟩,
          d.finish.result.map fun _ => .done, .reader shown, some (.ofSink sink)⟩ →
          match d.truncation? with
          | none => Unmoved d (.readAll reader sink) r
          | some error => Revived d error r := by
        rintro r rfl
        rcases finish_of_unready d with ⟨hwhole, hfinish⟩ | ⟨error, hbroken, hfinish⟩
        · simp only [hwhole, hfinish]
          exact ⟨rfl, rfl, huntouched.symm, rfl, hnone, fun error herror => by cases herror⟩
        · simp only [hbroken, hfinish]
          exact ⟨rfl, rfl, hcreated, rfl, rfl, rfl⟩
      rcases shown with ⟨_ | ⟨(_ | ⟨b, bs⟩) | cause, rest⟩⟩
      · exact hend rfl
      · exact hend rfl
      · refine ⟨rfl, rfl, huntouched.symm, rfl, hrefusal, ?_⟩
        exact fun error herror => (Except.error.inj herror).symm
      · exact ⟨rfl, rfl, hcreated, rfl, rfl, rfl⟩
  | finish =>
      refine ⟨_, rfl, rfl, ?_⟩
      rcases finish_of_unready d with ⟨hwhole, hfinish⟩ | ⟨error, hbroken, hfinish⟩
      · simp only [Call.mishap?, hwhole, hfinish]
        exact ⟨rfl, rfl, rfl, rfl, hnone, fun error herror => by cases herror⟩
      · simp only [Call.mishap?, hbroken, hfinish]
        exact ⟨rfl, rfl, hcreated, rfl, rfl, rfl⟩
  | reset => cases hcall
  | release =>
      have hrelease : d.release = ⟨d, [], .ok ()⟩ := by
        have hended : d.endSession = d := by
          rw [endSession_eq, retire_of_none hd, ← hd]
        rw [release, hended, hready]
        rfl
      rw [Call.report, hrelease]
      exact ⟨_, rfl, rfl, rfl, rfl, rfl, rfl, hnone, fun error herror => by cases herror⟩
  | setBufferSize size =>
      exact ⟨_, rfl, rfl, rfl, rfl, rfl, rfl, hnone, fun error herror => by cases herror⟩
  | setMultipleMembers multiple =>
      exact ⟨_, rfl, rfl, rfl, rfl, rfl, rfl, hnone, fun error herror => by cases herror⟩

/-! ## Many calls -/

omit [Sink σ] in
theorem Unmoved.of_resembles {d e : Decoder c} (hde : d.Resembles e) {call : Call σ}
    {r : Report c σ} (hbefore : r.before = e) (h : Unmoved e call r) : Unmoved d call r :=
  { h with before := hbefore ▸ hde }

omit [Sink σ] in
theorem Revived.of_resembles {d e : Decoder c} (hde : d.Resembles e) {error : DecodeError}
    {r : Report c σ} (hbefore : r.before = e) (h : Revived e error r) : Revived d error r where
  before := hbefore ▸ hde
  answer := h.answer
  after := by
    rw [← hde.memory]
    exact h.after
  events := h.events
  chunks := h.chunks
  calls := h.calls

/-- As long as no call meets a failure none has an effect, and what comes after them is done by a
    decoder that has only been given other settings. -/
theorem reports_of_unready {d e : Decoder c} (hd : d.session = none) (he : d.Resembles e)
    {fuel : Nat} {calls : List (Call σ)}
    (hcalls : ∀ call ∈ calls, call.resets = false ∧ call.span < fuel)
    (hquiet : ∀ call ∈ calls, call.mishap? d = none) (later : List (Call σ)) :
    ∃ rs e', d.Resembles e' ∧ Abreast (Unmoved d) calls rs ∧
      reports fuel e (calls ++ later) = (reports fuel e' later).map (rs ++ ·) := by
  induction calls generalizing e with
  | nil =>
      refine ⟨[], e, he, .nil, ?_⟩
      rw [List.nil_append]
      cases reports fuel e later <;> rfl
  | cons call rest ih =>
      rcases hcalls call List.mem_cons_self with ⟨hcall, hfuel⟩
      have hmishap : call.mishap? e = none :=
        (he.mishap call).trans (hquiet call List.mem_cons_self)
      rcases report_of_unready (he.session.trans hd) hcall hfuel with ⟨r, hr, hbefore, hunmoved⟩
      simp only [hmishap] at hunmoved
      have hafter : d.Resembles r.after := by
        rw [hunmoved.after, hbefore]
        exact he.configure call
      rcases ih hafter (fun call hmem => hcalls call (List.mem_cons_of_mem _ hmem))
        (fun call hmem => hquiet call (List.mem_cons_of_mem _ hmem)) with ⟨rs, e', he', hrs, hrest⟩
      refine ⟨r :: rs, e', he', .cons (hunmoved.of_resembles he hbefore) hrs, ?_⟩
      rw [List.cons_append, reports, hr]
      dsimp only [Except.bind]
      rw [hrest, map_map]
      rfl

/-- A decoder without a session stays without one as long as it is not reset: no call starts a
    session, reads anything or hands anything out. It is reset on request, and also by the first
    call that fails for another reason than that there is no session; then it has a new session
    like any decoder that was reset. -/
theorem unready_until_mishap {d : Decoder c} (hready : d.isReady = false) {fuel : Nat}
    {calls : List (Call σ)} (hcalls : ∀ call ∈ calls, call.resets = false ∧ call.span < fuel) :
    ((∀ call ∈ calls, call.mishap? d = none) →
      ∃ rs, reports fuel d calls = .ok rs ∧ Abreast (Unmoved d) calls rs ∧
        ∀ r ∈ rs, r.after.isReady = false ∧ r.after.memory = d.memory) ∧
    ∀ before call after error, calls = before ++ call :: after →
      (∀ call ∈ before, call.mishap? d = none) → call.mishap? d = some error →
      ∃ rs r, reports fuel d (before ++ [call]) = .ok (rs ++ [r]) ∧
        Abreast (Unmoved d) before rs ∧ Revived d error r := by
  have hd : d.session = none := by
    rw [isReady, Option.isSome_eq_false_iff, Option.isNone_iff_eq_none] at hready
    exact hready
  constructor
  · intro hquiet
    rcases reports_of_unready hd (resembles_refl d) hcalls hquiet [] with ⟨rs, e, _, hrs, hreports⟩
    rw [List.append_nil] at hreports
    refine ⟨rs, ?_, hrs, ?_⟩
    · rw [hreports]
      exact congrArg Except.ok (List.append_nil rs)
    · intro r hmem
      rcases hrs.exists_of_mem hmem with ⟨call, hunmoved⟩
      have hafter : d.Resembles r.after := hunmoved.after ▸ hunmoved.before.configure call
      refine ⟨?_, hafter.memory⟩
      rw [isReady, hafter.session, hd]
      rfl
  · intro before call after error hsplit hquiet hmishap
    subst hsplit
    have hbefore : ∀ call ∈ before, call.resets = false ∧ call.span < fuel := fun call hmem =>
      hcalls call (List.mem_append_left _ hmem)
    rcases hcalls call (List.mem_append_right _ List.mem_cons_self) with ⟨hcall, hfuel⟩
    rcases reports_of_unready hd (resembles_refl d) hbefore hquiet [call] with
      ⟨rs, e, he, hrs, hreports⟩
    rcases report_of_unready (he.session.trans hd) hcall hfuel with ⟨r, hr, hfirst, hrevived⟩
    simp only [(he.mishap call).trans hmishap] at hrevived
    refine ⟨rs, r, ?_, hrs, hrevived.of_resembles he hfirst⟩
    rw [hreports, reports, hr]
    rfl

/-! ## Sessions that nobody asked for -/

/-- A decoder that was created, was given bytes of a stream, and was released within it. -/
def torn : Decoder copier :=
  { idle copier () with outputOffset := 2, consumed := true, bufferSize := ⟨2, by decide⟩ }

/-- Nothing but a setting has an effect on it, until the input is said to be over. -/
theorem unready_until_mishap_copier : ∃ (rs : List (Report copier (Array Chunk)))
    (r : Report copier (Array Chunk)),
    torn.isReady = false ∧
    reports 9 torn ([.push [7] #[], .next (.ofBytes [7]), .release, .setMultipleMembers true,
      .readAll ⟨[.fail ⟨.interrupted, "again"⟩, .data [7, 0]]⟩ #[]] ++ [.finish]) =
        .ok (rs ++ [r]) ∧
    Abreast (Unmoved torn) [.push [7] #[], .next (.ofBytes [7]), .release,
      .setMultipleMembers true,
      .readAll ⟨[.fail ⟨.interrupted, "again"⟩, .data [7, 0]]⟩ #[]] rs ∧
    Revived torn (.truncated 2) r := by
  have hcalls : ∀ call ∈ ([.push [7] #[], .next (.ofBytes [7]), .release,
      .setMultipleMembers true, .readAll ⟨[.fail ⟨.interrupted, "again"⟩, .data [7, 0]]⟩ #[],
      .finish] : List (Call (Array Chunk))), call.resets = false ∧ call.span < 9 := by
    intro call hmem
    simp only [List.mem_cons, List.not_mem_nil, or_false] at hmem
    rcases hmem with rfl | rfl | rfl | rfl | rfl | rfl <;> exact ⟨rfl, by decide⟩
  have hquiet : ∀ call ∈ ([.push [7] #[], .next (.ofBytes [7]), .release,
      .setMultipleMembers true, .readAll ⟨[.fail ⟨.interrupted, "again"⟩, .data [7, 0]]⟩ #[]] :
      List (Call (Array Chunk))), call.mishap? torn = none := by
    intro call hmem
    simp only [List.mem_cons, List.not_mem_nil, or_false] at hmem
    rcases hmem with rfl | rfl | rfl | rfl | rfl <;> rfl
  rcases (unready_until_mishap (d := torn) rfl hcalls).2 _ .finish [] _ rfl hquiet rfl with
    ⟨rs, r, hreports, hrs, hr⟩
  exact ⟨rs, r, rfl, hreports, hrs, hr⟩

/-- A decoder that never had a session gets one when a reader fails, and one that was released
    within a stream gets another one at the end of the input. -/
theorem readiness_regained :
    (∃ r : Report copier.counted (Array Chunk),
      (Call.readAll ⟨[.fail ⟨.other, "gone"⟩]⟩ #[]).report 9 (idle copier.counted ((), [])) =
        .ok r ∧
      r.before.isReady = false ∧ r.answer = .error (.input ⟨.other, "gone"⟩) ∧
      r.after.isReady = true ∧ r.after.memory.2 = [.begins 0]) ∧
    ∃ rs : List (Report copier.counted (Array Chunk)),
      reports 9 (idle copier.counted ((), [])) [.setBufferSize ⟨2, by decide⟩, .reset,
        .push [5, 6] #[], .release, .finish] = .ok rs ∧
      rs.map (fun r => r.after.isReady) = [false, true, true, false, true] ∧
      rs.map (fun r => r.after.memory.2) = [[], [.begins 0], [.begins 0], [.begins 0, .ends 0],
        [.begins 0, .ends 0, .begins 1]] :=
  ⟨⟨_, rfl, rfl, rfl, rfl, rfl⟩, ⟨_, rfl, rfl, rfl⟩⟩

end Decompression
