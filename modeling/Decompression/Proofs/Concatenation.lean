import Decompression.Proofs.Copier
import Decompression.Proofs.Placement

/-!
# Streams One after Another

A decoder for several members that is given streams one after another in one piece of input
does what as many fresh decoders do that are given one stream each, one after another, with
the same sink: it makes the same calls, and the offsets of each stream begin where those of
the stream before it ended.

`Separately` is what the fresh decoders do. The push of the whole is followed through the
first stream by placing the push of that stream in longer input, and from there on it is
the push of the others, made by a decoder that has come further.

## Main definitions

* `Separately`: Streams pushed by fresh decoders, one each.
* `Together`: A push that comes to the same.

## Theorems

* `together_of_separately`: Pushing the streams in one piece.
* `members_shift`: A further member is a fresh start at a larger offset.
-/

namespace Decompression

open Decoder Loop

variable {S M σ : Type} {c : Codec S M} [Sink σ]

/-! ## Pushes that are ahead -/

section Pushes

variable {R : σ → σ → Prop} {h : c.Restarts} {o : Nat} {earlier : List SinkCall}
  {d₁ d₂ : Decoder c} {k₁ k₂ : Recorder σ}

theorem push_agrees (hR : Blind R) (hd : (restarting h).Shifted o d₁ d₂)
    (hk : Ahead R earlier o k₁ k₂) (fuel : Nat) (input : Cursor) :
    Agree o Logged.events (LoggedAlike o ((restarting h).TurnShifted (Ahead R earlier o) id o))
      (pushCursor fuel ⟨d₁, input, k₁⟩) (pushCursor fuel ⟨d₂, input, k₂⟩) :=
  Likeness.push_alike (ahead_serves hR) (ahead_takes hR) fuel ⟨hd, rfl, hk⟩

/-- A push that is ahead comes to the same, or runs out of offsets. -/
theorem settles_ahead (hR : Blind R) (hd : (restarting h).Shifted o d₁ d₂)
    (hk : Ahead R earlier o k₁ k₂) {input : Cursor}
    {r₂ : Logged Event (Turn c Cursor (Recorder σ) Bool)}
    (hs : Settles (fun fuel => pushCursor fuel ⟨d₂, input, k₂⟩) (.ok r₂)) :
    (∃ r₁, Settles (fun fuel => pushCursor fuel ⟨d₁, input, k₁⟩) (.ok r₁) ∧
      LoggedAlike o ((restarting h).TurnShifted (Ahead R earlier o) id o) r₁ r₂) ∨
    (Settles (fun fuel => pushCursor fuel ⟨d₁, input, k₁⟩) (.error .offsetOverflow) ∧
      ∃ offset length, Event.chunkProduced offset length ∈ r₂.events ∧
        offset + length < offsetLimit ∧ offsetLimit ≤ offset + o + length) := by
  rcases hs.exists_fuel with ⟨fuel, hfuel⟩
  have hagree := push_agrees hR hd hk fuel input
  rw [hfuel] at hagree
  generalize hr₁ : pushCursor fuel ⟨d₁, input, k₁⟩ = o₁ at hagree
  cases hagree with
  | ok halike => exact Or.inl ⟨_, (stable_push _).settles hr₁ (ok_ne_outOfFuel _), halike⟩
  | overflow hnoted =>
      exact Or.inr ⟨(stable_push _).settles hr₁ (fun hc => by cases hc), hnoted r₂ rfl⟩

-- Where the one does not return the other one does not either.
theorem settles_error_ahead (hR : Blind R) (hd : (restarting h).Shifted o d₁ d₂)
    (hk : Ahead R earlier o k₁ k₂) {input : Cursor} {f₂ : Fault}
    (hs : Settles (fun fuel => pushCursor fuel ⟨d₂, input, k₂⟩) (.error f₂)) :
    ∃ f₁, Settles (fun fuel => pushCursor fuel ⟨d₁, input, k₁⟩) (.error f₁) := by
  rcases hs.exists_fuel with ⟨fuel, hfuel⟩
  have hagree := push_agrees hR hd hk fuel input
  rw [hfuel] at hagree
  generalize hr₁ : pushCursor fuel ⟨d₁, input, k₁⟩ = o₁ at hagree
  cases hagree with
  | @fault f₁ _ hiff =>
      have hne : f₁ ≠ .outOfFuel := fun hc => hs.1 (by rw [hiff.mp hc])
      exact ⟨f₁, (stable_push _).settles hr₁ fun hc => hne (Except.error.inj hc)⟩
  | overflow _ => exact ⟨_, (stable_push _).settles hr₁ fun hc => by cases hc⟩

end Pushes

/-! ## One stream, and what comes after it -/

section Onward

variable {R : σ → σ → Prop} {f d : Decoder c} {input : Cursor} {k : Recorder σ}

theorem Decoder.Fresh.isReady {f : Decoder c} (hf : f.Fresh) : f.isReady = true := by
  rcases hf.session with ⟨_, s, _, _, hs⟩
  rw [Decoder.isReady, hs]
  rfl

theorem atEnd_of_push {x : List UInt8} {r : Logged Event (Turn c Cursor (Recorder σ) Bool)}
    (hf : f.Fresh) (hmultiple : f.multipleMembers = true)
    (hpush : Settles (fun fuel => f.push fuel x k) (.ok r)) (hended : r.result.result = .ok true) :
    AtEnd f r.result := by
  have hsession := isReady_iff.mp hf.isReady
  have hreaches := reaches_of_ends ((settles_push_iff (w := ⟨f, .ofBytes x, k⟩) hsession).mp hpush)
    hsession hended
  exact atEnd_of_reaches hreaches hf.isReady (Nat.zero_le _) hmultiple

/-- A push of one stream, with more input behind it: what comes of it is what comes of the
    rest, pushed into the decoder with the next session. -/
theorem settles_onward (hc : c.Local) {x later : List UInt8}
    {r : Logged Event (Turn c Cursor (Recorder σ) Bool)} (hready : f.isReady = true)
    (hrunning : f.finished = false) (hmultiple : f.multipleMembers = true)
    (hpush : Settles (fun fuel => f.push fuel x k) (.ok r)) (hended : r.result.result = .ok true)
    (hbounds : input.InBounds) (hrest : input.rest = x ++ later)
    {o : Except Fault (Logged Event (Turn c Cursor (Recorder σ) Bool))}
    (ho : Settles (fun fuel => pushCursor fuel (r.result.toScene.placed input.front later)) o) :
    ∃ events, Settles (fun fuel => pushCursor fuel ⟨f, input, k⟩) (preceded events o) := by
  have hsession := isReady_iff.mp hready
  have hreaches := reaches_of_ends ((settles_push_iff (w := ⟨f, .ofBytes x, k⟩) hsession).mp hpush)
    hsession hended
  have hend := atEnd_of_reaches hreaches hready (Nat.zero_le _) hmultiple
  have hopen : f.finished = true → (Cursor.ofBytes x).rest ≠ [] := by
    intro hfinished
    rw [hrunning] at hfinished
    cases hfinished
  have hends := (settles_push_iff (w := r.result.toScene.placed input.front later)
    (isReady_iff.mp hend.ready)).mp ho
  rcases ends_placed hc hreaches hready (Nat.zero_le _) hmultiple hopen input.front later hends with
    ⟨events, hplaced⟩
  have hscene : Scene.placed input.front later (⟨f, .ofBytes x, k⟩ : Scene c Cursor (Recorder σ)) =
      ⟨f, input, k⟩ := by
    unfold Scene.placed
    rw [Cursor.placed_ofBytes hbounds hrest]
  rw [hscene] at hplaced
  exact ⟨events, (settles_push_iff hsession).mpr hplaced⟩

/-- With more input behind it, a stream is followed by a further member. -/
theorem settles_further (hc : c.Local) {x later : List UInt8}
    {r : Logged Event (Turn c Cursor (Recorder σ) Bool)} (hf : f.Fresh)
    (hmultiple : f.multipleMembers = true) (hpush : Settles (fun fuel => f.push fuel x k) (.ok r))
    (hended : r.result.result = .ok true) (hbounds : input.InBounds)
    (hrest : input.rest = x ++ later) (hmore : later ≠ []) {s : S} {memory : M}
    (hstart : c.start r.result.decoder.retire = (.ok s, memory)) :
    ∀ o, Settles (fun fuel => pushCursor fuel
        ⟨r.result.decoder.startedAt r.result.decoder.outputOffset s memory,
          r.result.input.placed input.front later, r.result.sink⟩) o →
      ∃ events, Settles (fun fuel => pushCursor fuel ⟨f, input, k⟩) (preceded events o) := by
  intro o ho
  have hend := atEnd_of_push hf hmultiple hpush hended
  have hplaced := Cursor.placed_inBounds hend.bounds input.front later
  have hrest' : (r.result.input.placed input.front later).rest ≠ [] := by
    rw [Cursor.rest_placed hend.bounds, hend.exhausted]
    exact hmore
  have henter :=
    enter_of_finished hend.finished (hend.multiple.trans hmultiple) hplaced hrest' hstart
  have hentered := settles_preceded (fun fuel => pushCursor_of_enter fuel r.result.sink henter
    (enter_of_running rfl) hend.ready rfl) ho
  rcases settles_onward hc hf.isReady hf.finished hmultiple hpush hended hbounds hrest hentered with
    ⟨events, hsettles⟩
  rw [← preceded_append] at hsettles
  exact ⟨_, hsettles⟩

end Onward

/-! ## Streams together and separately -/

section Streams

/-- Fresh decoders push the streams, one each, into a sink that is handed on from one to the
    next. The calls are those on the sink, further on by what the streams before have put out. -/
inductive Separately (c : Codec S M) (size : BufferSize) :
    List (List UInt8) → σ → List SinkCall → Nat → σ → Prop
  | nil (k : σ) : Separately c size [] k [] 0 k
  | cons {x : List UInt8} {xs : List (List UInt8)} {k k' : σ} {f : Decoder c}
      {r : Logged Event (Turn c Cursor (Recorder σ) Bool)} {calls : List SinkCall} {total : Nat}
      (fresh : f.Fresh) (hsize : f.bufferSize = size) (multiple : f.multipleMembers = true)
      (push : Settles (fun fuel => f.push fuel x (Recorder.ofSink k)) (.ok r))
      (ended : r.result.result = .ok true)
      (rest : Separately c size xs r.result.sink.inner calls total k') :
      Separately c size (x :: xs) k
        (r.result.sink.calls ++ calls.map (SinkCall.shift r.result.decoder.outputOffset))
        (r.result.decoder.outputOffset + total) k'

/-- The push gets to the end, with these calls on the sink and so much output; or there is too
    much of it for an offset. -/
def Together (R : σ → σ → Prop) (w : Scene c Cursor (Recorder σ)) (calls : List SinkCall)
    (total : Nat) (k : σ) : Prop :=
  (∃ r, Settles (fun fuel => pushCursor fuel w) (.ok r) ∧ r.result.result = .ok true ∧
    r.result.sink.calls = calls ∧ r.result.decoder.outputOffset = total ∧ R r.result.sink.inner k) ∨
  ((∃ fault, Settles (fun fuel => pushCursor fuel w) (.error fault)) ∧ offsetLimit ≤ total)

theorem SinkCall.shift_zero (call : SinkCall) : call.shift 0 = call := by
  cases call with
  | alloc _ _ _ => rfl
  | push _ _ => rfl

-- Two fresh decoders with the same settings are on a par.
theorem fresh_alike (h : c.Restarts) {f g : Decoder c} (hf : f.Fresh) (hg : g.Fresh)
    (hsize : f.bufferSize = g.bufferSize) (hmultiple : f.multipleMembers = g.multipleMembers) :
    (restarting h).Shifted 0 f g := by
  rcases hf.session with ⟨m, s, m', hstart, hs⟩
  rcases hg.session with ⟨n, t, n', hstart', ht⟩
  refine ⟨trivial, ?_, ?_, ?_, ?_, ?_, hsize, hmultiple⟩
  · rw [hs, ht]
    exact .some (h.alike hstart hstart')
  · rw [hf.outputOffset, hg.outputOffset]
  · rw [hf.memberBase, hg.memberBase]
  · rw [hf.consumed, hg.consumed]
  · rw [hf.finished, hg.finished]

/-- The push of a stream does not depend on which fresh decoder it is made by. -/
theorem push_of_fresh {R : σ → σ → Prop} (hR : Blind R) (h : c.Restarts) {f g : Decoder c}
    (hf : f.Fresh) (hg : g.Fresh) (hsize : f.bufferSize = g.bufferSize)
    (hmultiple : f.multipleMembers = g.multipleMembers) {k₁ k : σ} (hk : R k₁ k) {x : List UInt8}
    {r : Logged Event (Turn c Cursor (Recorder σ) Bool)}
    (hpush : Settles (fun fuel => g.push fuel x (Recorder.ofSink k)) (.ok r))
    (hended : r.result.result = .ok true) :
    ∃ r₁, Settles (fun fuel => f.push fuel x (Recorder.ofSink k₁)) (.ok r₁) ∧
      r₁.result.result = .ok true ∧ r₁.result.sink.calls = r.result.sink.calls ∧
      r₁.result.decoder.outputOffset = r.result.decoder.outputOffset ∧
      R r₁.result.sink.inner r.result.sink.inner := by
  have hshifted := fresh_alike h hf hg hsize hmultiple
  rcases settles_ahead hR hshifted (ahead_ofSink hk 0) hpush with
    ⟨r₁, hpush₁, halike⟩ | ⟨_, offset, length, _, hin, hout⟩
  · refine ⟨r₁, hpush₁, ?_, ?_, ?_, halike.result.sink.inner⟩
    · rw [halike.result.result, hended]
      rfl
    · have hshift : SinkCall.shift 0 = id := funext SinkCall.shift_zero
      rw [halike.result.sink.calls, hshift, List.map_id, List.nil_append]
    · have hdecoder := halike.result.decoder
      rw [shiftAfter_zero] at hdecoder
      exact hdecoder.outputOffset
  · exact absurd hin (Nat.not_lt.mpr hout)

/-- One stream in front of others that are pushed together. -/
theorem together_onward {R : σ → σ → Prop} (hR : Blind R) (h : c.Restarts) (hc : c.Local)
    {f : Decoder c} (hf : f.Fresh) (hmultiple : f.multipleMembers = true) {k₁ k' : σ}
    {x later : List UInt8} {r : Logged Event (Turn c Cursor (Recorder σ) Bool)}
    (hpush : Settles (fun fuel => f.push fuel x (Recorder.ofSink k₁)) (.ok r))
    (hended : r.result.result = .ok true) {input : Cursor} (hbounds : input.InBounds)
    (hrest : input.rest = x ++ later) (hmore : later ≠ []) {s : S} {memory : M}
    (hstart : c.start r.result.decoder.retire = (.ok s, memory))
    {calls : List SinkCall} {total : Nat}
    (hnext : Together R ⟨r.result.decoder.startedAt 0 s memory,
      r.result.input.placed input.front later, Recorder.ofSink r.result.sink.inner⟩
        calls total k') :
    Together R ⟨f, input, Recorder.ofSink k₁⟩
      (r.result.sink.calls ++ calls.map (SinkCall.shift r.result.decoder.outputOffset))
      (r.result.decoder.outputOffset + total) k' := by
  have hfresh : (r.result.decoder.startedAt 0 s memory).Fresh :=
    ⟨⟨_, s, memory, hstart, rfl⟩, rfl, rfl, rfl, rfl⟩
  have hahead := startedAt_ahead h hfresh rfl rfl hstart r.result.decoder.outputOffset
  have hk : Ahead R r.result.sink.calls r.result.decoder.outputOffset r.result.sink
      (Recorder.ofSink r.result.sink.inner) := ⟨hR.refl _, (List.append_nil _).symm⟩
  -- What the decoder at the next member does is what this push goes on with.
  have honward := settles_further hc hf hmultiple hpush hended hbounds hrest hmore hstart
  rcases hnext with ⟨r', hr', hended', hcalls, htotal, hsink⟩ | ⟨⟨fault, hfault⟩, hlimit⟩
  · rcases settles_ahead hR hahead hk hr' with
      ⟨q, hq, halike⟩ | ⟨hoverflow, offset, length, hnoted, hin, hout⟩
    · rcases honward _ hq with ⟨events, hsettles⟩
      refine Or.inl ⟨_, hsettles, ?_, ?_, ?_, ?_⟩
      · rw [halike.result.result, hended']
        rfl
      · rw [halike.result.sink.calls, hcalls]
      · have hdecoder := halike.result.decoder
        rw [hended'] at hdecoder
        rw [hdecoder.outputOffset, htotal, Nat.add_comm]
        rfl
      · exact hR.trans halike.result.sink.inner hsink
    · have hsession : (r.result.decoder.startedAt 0 s memory).session ≠ none :=
        isReady_iff.mp hfresh.isReady
      have hends :=
        (settles_push_iff (w := ⟨_, _, Recorder.ofSink r.result.sink.inner⟩) hsession).mp hr'
      have hchunk := (noted_of_ends hends hsession hended').chunks offset length hnoted
      rw [htotal] at hchunk
      rcases honward _ hoverflow with ⟨events, hsettles⟩
      exact Or.inr ⟨⟨_, hsettles⟩, by omega⟩
  · rcases settles_error_ahead hR hahead hk hfault with ⟨fault', hfault'⟩
    rcases honward _ hfault' with ⟨events, hsettles⟩
    exact Or.inr ⟨⟨fault', hsettles⟩, Nat.le_trans hlimit (Nat.le_add_left _ _)⟩

-- Nothing is left to be done after the last stream.
theorem together_last {R : σ → σ → Prop} (hc : c.Local) {f : Decoder c} (hf : f.Fresh)
    (hmultiple : f.multipleMembers = true) {k₁ k' : σ} {x : List UInt8}
    {r : Logged Event (Turn c Cursor (Recorder σ) Bool)}
    (hpush : Settles (fun fuel => f.push fuel x (Recorder.ofSink k₁)) (.ok r))
    (hended : r.result.result = .ok true) {input : Cursor} (hbounds : input.InBounds)
    (hrest : input.rest = x) (hsink : R r.result.sink.inner k') :
    Together R ⟨f, input, Recorder.ofSink k₁⟩ r.result.sink.calls
      r.result.decoder.outputOffset k' := by
  have hend := atEnd_of_push hf hmultiple hpush hended
  have hplaced := Cursor.placed_inBounds hend.bounds input.front []
  have hexhausted : (r.result.input.placed input.front []).rest = [] := by
    rw [Cursor.rest_placed hend.bounds, hend.exhausted]
    rfl
  have hover : Settles (fun fuel => pushCursor fuel (r.result.toScene.placed input.front []))
      (.ok ⟨[], ⟨r.result.toScene.placed input.front [], .ok true⟩⟩) :=
    (settles_push_iff (w := r.result.toScene.placed input.front []) (isReady_iff.mp hend.ready)).mpr
      (.done (settles_drive (.spent hend.finished hexhausted) hplaced))
  rcases settles_onward hc hf.isReady hf.finished hmultiple hpush hended hbounds
    (hrest.trans (List.append_nil x).symm) hover with ⟨events, hsettles⟩
  exact Or.inl ⟨_, hsettles, rfl, rfl, rfl, hsink⟩

-- Something is left for the last of several streams, and so for all of them.
theorem flatten_ne_nil_of_last {xs : List (List UInt8)} (hne : xs ≠ [])
    (hlast : xs.getLast? ≠ some []) : xs.flatten ≠ [] := by
  intro hnil
  have hempty := List.flatten_eq_nil_iff.mp hnil (xs.getLast hne) (List.getLast_mem hne)
  rw [List.getLast?_eq_some_getLast hne, hempty] at hlast
  exact hlast rfl

theorem tail_getLast_ne {xs : List (List UInt8)} (hlast : xs.getLast? ≠ some []) :
    xs.tail.getLast? ≠ some [] := by
  rw [List.getLast?_tail]
  split
  · exact fun hc => by cases hc
  · exact hlast

/-- Pushing the streams in one piece comes to what pushing them separately comes to. -/
theorem together_of_separately {R : σ → σ → Prop} (hR : Blind R) (h : c.Restarts) (hc : c.Local)
    {size : BufferSize} {xs : List (List UInt8)} {k k' : σ} {calls : List SinkCall} {total : Nat}
    (hsep : Separately c size xs k calls total k') :
    xs ≠ [] → xs.tail.getLast? ≠ some [] → ∀ {f : Decoder c} {input : Cursor} {k₁ : σ}, f.Fresh →
      f.bufferSize = size → f.multipleMembers = true → input.InBounds → input.rest = xs.flatten →
      R k₁ k → Together R ⟨f, input, Recorder.ofSink k₁⟩ calls total k' := by
  induction hsep with
  | nil _ => exact fun hne => absurd rfl hne
  | @cons x xs k k' g r calls total hg hsize' hmultiple' hpush hended hsep ih =>
      intro _ hlast f input k₁ hf hsize hmultiple hbounds hrest hk
      rcases push_of_fresh hR h hf hg (hsize.trans hsize'.symm) (hmultiple.trans hmultiple'.symm) hk
        hpush hended with ⟨r₁, hpush₁, hended₁, hcalls, hoffset, hsink⟩
      rw [← hcalls, ← hoffset]
      rw [List.flatten_cons] at hrest
      cases hsep with
      | nil _ =>
          rw [List.flatten_nil, List.append_nil] at hrest
          rw [List.map_nil, List.append_nil, Nat.add_zero]
          exact together_last hc hf hmultiple hpush₁ hended₁ hbounds hrest hsink
      | @cons y ys _ _ g' r' calls' total' hg' hsize'' hmultiple'' hpush' hended' hsep' =>
          have hend := atEnd_of_push hf hmultiple hpush₁ hended₁
          rw [List.tail_cons] at hlast
          have hmore := flatten_ne_nil_of_last (List.cons_ne_nil y ys) hlast
          rcases h.start r₁.result.decoder.retire with ⟨s, memory, hstart⟩
          have hrest' : (r₁.result.input.placed input.front (y :: ys).flatten).rest =
              (y :: ys).flatten := by
            rw [Cursor.rest_placed hend.bounds, hend.exhausted, List.nil_append]
          refine together_onward hR h hc hf hmultiple hpush₁ hended₁ hbounds hrest hmore hstart
            (ih (List.cons_ne_nil y ys) (tail_getLast_ne hlast)
              ⟨⟨_, s, memory, hstart, rfl⟩, rfl, rfl, rfl, rfl⟩
              (hend.size.trans hsize) (hend.multiple.trans hmultiple)
              (Cursor.placed_inBounds hend.bounds _ _) hrest' hsink)

end Streams

/-! ## A further member is a fresh start -/

/-- A decoder that has finished a stream, and is given more, goes on as a fresh decoder would
    that is given the same: whatever pushes, checks for the end and changes of the buffer size
    follow, up to the first that fails, every answer and every call on the sink are the same
    with offsets that are larger by what has been put out before, and after a failure there is
    nothing between the two. Where the primitive heeds nothing but its stream, streams pushed
    in one piece come to what fresh decoders make of them one by one, each further on by what
    the streams before it have put out; an empty stream behind all others would not be noticed. -/
theorem members_shift {R : σ → σ → Prop} (hR : Blind R) (h : c.Restarts) :
    (∀ {d f : Decoder c}, d.isReady = true → d.finished = true → d.multipleMembers = true →
      f.Fresh → f.bufferSize = d.bufferSize → f.multipleMembers = d.multipleMembers →
      ∀ {bytes : List UInt8}, bytes ≠ [] → ∀ {k₁ k₂ : σ}, R k₁ k₂ →
      ∀ (fuel : Nat) (calls : List (Feed σ)),
        Agree d.outputOffset Played.events
          (PlayedAhead h R [.nextMember d.outputOffset] d.outputOffset)
          (play fuel d (Recorder.ofSink k₁) (.push bytes :: calls))
          (play fuel f (Recorder.ofSink k₂) (.push bytes :: calls))) ∧
    (c.Local → ∀ {size : BufferSize} {xs : List (List UInt8)} {k k' : σ} {calls : List SinkCall}
      {total : Nat}, Separately c size xs k calls total k' → xs ≠ [] → xs.tail.getLast? ≠ some [] →
      ∀ {f : Decoder c}, f.Fresh → f.bufferSize = size → f.multipleMembers = true →
      ∀ {k₁ : σ}, R k₁ k →
        Together R ⟨f, .ofBytes xs.flatten, Recorder.ofSink k₁⟩ calls total k') := by
  constructor
  · intro d f hready hfinished hmultiple hf hsize hconfig bytes hmore k₁ k₂ hk fuel calls
    exact restart_alike hR h hready hfinished hmultiple hf hsize hconfig hmore hk fuel calls
  · intro hc size xs k k' calls total hsep hne hlast f hf hsize hmultiple k₁ hk
    exact together_of_separately hR h hc hsep hne hlast hf hsize hmultiple (Nat.zero_le _) rfl hk

omit [Sink σ]

/-! ## Members that are copied -/

section Copies

theorem copier_restarts : copier.Restarts where
  start memory := ⟨_, _, rfl⟩
  alike := by
    intro m₁ m₁' m₂ m₂' s₁ s₂ hstart₁ hstart₂
    cases hstart₁
    cases hstart₂
    refine ⟨Eq, rfl, ?_⟩
    rintro t _ rfl
    exact ⟨rfl, fun _ _ _ _ => ⟨rfl, rfl, rfl, rfl⟩⟩

theorem copier_step_eq (total : Nat) (input : Cursor) (buffer : List UInt8) {data : List UInt8}
    (hdata : (upToZero input.rest).take buffer.length = data) :
    copier.step (total, false) input (.ofBytes buffer) =
      if (input.rest.drop data.length).head? = some 0 then
        ⟨(total + data.length, true), input.advance (data.length + 1),
          (Cursor.ofBytes buffer).fill data, .ok .streamEnd⟩
      else ⟨(total + data.length, false), input.advance data.length,
        (Cursor.ofBytes buffer).fill data, .ok .progress⟩ := by
  have hroom : (input.rest.takeWhile (· != 0)).take (Cursor.ofBytes buffer).room = data := hdata
  simp only [copier, Bool.false_eq_true, if_false, hroom, rest_advance]
  rfl

theorem advance_placed (before later : List UInt8) (input : Cursor) (n : Nat) :
    (input.placed before later).advance n = (input.advance n).placed before later := by
  simp only [Cursor.placed, Cursor.advance, Nat.add_assoc]

-- A zero ends a stream, and nothing behind it is looked at.
theorem copier_placed {s : Nat × Bool} {input : Cursor} (hbounds : input.InBounds)
    (before : List UInt8) {later : List UInt8}
    (hend : later = [] ∨ s.2 = true ∨ 0 ∈ input.rest) (buffer : List UInt8) :
    copier.step s (input.placed before later) (.ofBytes buffer) =
      (copier.step s input (.ofBytes buffer)).placed before later := by
  rcases s with ⟨total, ended⟩
  cases ended with
  | true => rfl
  | false =>
      have hsame : upToZero (input.rest ++ later) = upToZero input.rest ∧
          ∀ n, n ≤ (upToZero input.rest).length →
            ((input.rest ++ later).drop n).head? = (input.rest.drop n).head? := by
        rcases hend with rfl | hover | hzero
        · simp only [List.append_nil, implies_true, and_self]
        · cases hover
        · rcases List.eq_append_cons_of_mem hzero with ⟨a, b, hrest, ha⟩
          rw [hrest, List.append_assoc, List.cons_append, upToZero_append_zero ha,
            upToZero_append_zero ha]
          refine ⟨rfl, fun n hn => ?_⟩
          rw [List.drop_append_of_le_length hn, List.drop_append_of_le_length hn, List.head?_append,
            List.head?_append]
          rfl
      generalize hdata : (upToZero input.rest).take buffer.length = data
      have hdata' : (upToZero (input.placed before later).rest).take buffer.length = data := by
        rw [Cursor.rest_placed hbounds, hsame.1, hdata]
      have hle : data.length ≤ (upToZero input.rest).length := by
        rw [← hdata, List.length_take]
        exact Nat.min_le_right _ _
      rw [copier_step_eq total _ buffer hdata, copier_step_eq total _ buffer hdata',
        Cursor.rest_placed hbounds, hsame.2 data.length hle, advance_placed, advance_placed]
      by_cases hhead : (input.rest.drop data.length).head? = some 0
      · rw [if_pos hhead, if_pos hhead]
        rfl
      · rw [if_neg hhead, if_neg hhead]
        rfl

theorem zero_of_completes {s : Nat × Bool} {input : Cursor} (h : copier.Completes s input) :
    s.2 = true ∨ 0 ∈ input.rest := by
  induction h with
  | @last s input buffer stepped _ hroom hstep _ houtcome =>
      rcases s with ⟨total, ended⟩
      cases ended with
      | true => exact Or.inl rfl
      | false =>
          rcases copied hstep with ⟨data, _, _, _, _, ⟨_, _, hrest, _⟩ | ⟨hok, _⟩⟩
          · refine Or.inr ?_
            rw [hrest]
            exact List.mem_append_right _ List.mem_cons_self
          · rw [hok] at houtcome
            cases houtcome
  | @more s input buffer stepped _ hroom hstep _ houtcome _ ih =>
      rcases s with ⟨total, ended⟩
      cases ended with
      | true => exact Or.inl rfl
      | false =>
          rcases copied hstep with ⟨data, _, _, _, _, ⟨hok, _⟩ | ⟨_, hover, hrest, _⟩⟩
          · rw [hok] at houtcome
            cases houtcome
          · refine Or.inr ?_
            rw [hrest]
            rcases ih with hc | hzero
            · rw [hover] at hc
              cases hc
            · exact List.mem_append_right _ hzero

theorem copier_local : copier.Local where
  unread _ before _ _ hbounds _ := copier_placed hbounds before (Or.inl rfl) _
  within h _ _ := copier_placed h.bounds [] (Or.inr (zero_of_completes h)) _

theorem blind_array : Blind fun k k' : Array Chunk => k.map Chunk.data = k'.map Chunk.data where
  refl _ := rfl
  trans h h' := h.trans h'
  alloc h _ _ _ := ⟨rfl, h⟩
  push := by
    intro k₁ k₂ h chunk₁ chunk₂ hdata
    refine ⟨rfl, ?_⟩
    change (k₁.push chunk₁).map Chunk.data = (k₂.push chunk₂).map Chunk.data
    rw [Array.map_push, Array.map_push, h, hdata]

theorem members_shift_copier : ∃ (f : Decoder copier)
    (r : Logged Event (Turn copier Cursor (Recorder (Array Chunk)) Bool)),
    f = ({ Decoder.copying true with bufferSize := ⟨2, by decide⟩ } :
      Decoder copier).reset.decoder ∧
    f.push 9 [5, 6, 0] (Recorder.ofSink #[]) = .ok r ∧ r.result.decoder.outputOffset = 2 ∧
    (∃ p₁ p₂, play 9 r.result.decoder (Recorder.ofSink #[]) [.push [7, 0, 8], .finish] = .ok p₁ ∧
      play 9 f (Recorder.ofSink #[]) [.push [7, 0, 8], .finish] = .ok p₂ ∧
      PlayedAhead copier_restarts (fun k k' => k.map Chunk.data = k'.map Chunk.data)
        [.nextMember 2] 2 p₁ p₂) ∧
    ∃ q, Settles (fun fuel => f.push fuel [5, 6, 0, 7, 0] (Recorder.ofSink (#[] : Array Chunk)))
        (.ok q) ∧ q.result.result = .ok true ∧ q.result.decoder.outputOffset = 3 ∧
      q.result.sink.handed = [⟨0, [5, 6]⟩, ⟨2, [7]⟩] := by
  have hpushes : ∃ (f : Decoder copier)
      (r r' : Logged Event (Turn copier Cursor (Recorder (Array Chunk)) Bool))
      (p₁ p₂ : Played copier (Array Chunk)),
      f = ({ Decoder.copying true with bufferSize := ⟨2, by decide⟩ } :
        Decoder copier).reset.decoder ∧
      f.Fresh ∧ f.multipleMembers = true ∧
      (f.push 9 [5, 6, 0] (Recorder.ofSink #[]) = .ok r ∧ r.result.result = .ok true ∧
        r.result.decoder.isReady = true ∧ r.result.decoder.finished = true ∧
        r.result.decoder.multipleMembers = true ∧ f.bufferSize = r.result.decoder.bufferSize ∧
        r.result.decoder.outputOffset = 2) ∧
      (f.push 9 [7, 0] (Recorder.ofSink r.result.sink.inner) = .ok r' ∧
        r'.result.result = .ok true ∧
        r'.result.decoder.outputOffset = 1) ∧
      (r.result.sink.calls ++ r'.result.sink.calls.map (SinkCall.shift 2)).filterMap
        SinkCall.chunk? = [⟨0, [5, 6]⟩, ⟨2, [7]⟩] ∧
      play 9 r.result.decoder (Recorder.ofSink #[]) [.push [7, 0, 8], .finish] = .ok p₁ ∧
      play 9 f (Recorder.ofSink #[]) [.push [7, 0, 8], .finish] = .ok p₂ :=
    ⟨_, _, _, _, _, rfl, ⟨⟨(), _, (), rfl, rfl⟩, rfl, rfl, rfl, rfl⟩, rfl,
      ⟨rfl, rfl, rfl, rfl, rfl, rfl, rfl⟩, ⟨rfl, rfl, rfl⟩, rfl, rfl, rfl⟩
  rcases hpushes with ⟨f, r, r', p₁, p₂, hf, hfresh, hmultiple,
    ⟨hpush, hended, hready, hfinished, hmultiple', hsize, hoffset⟩,
      ⟨hpush', hended', hoffset'⟩, hcalls,
    hplay₁, hplay₂⟩
  have hshift := members_shift blind_array copier_restarts
  have hempty : (#[] : Array Chunk).map Chunk.data = (#[] : Array Chunk).map Chunk.data := rfl
  have hplays := hshift.1 hready hfinished hmultiple' hfresh hsize (hmultiple.trans hmultiple'.symm)
    (List.cons_ne_nil 7 [0, 8]) hempty 9 [.finish]
  rw [hplay₁, hplay₂, hoffset] at hplays
  rcases hplays.ok_of_ok with ⟨p, hp, hahead⟩
  cases hp
  have hsettles := (stable_push _).settles hpush (ok_ne_outOfFuel r)
  have hsettles' := (stable_push _).settles hpush' (ok_ne_outOfFuel r')
  have hsep := Separately.cons hfresh rfl hmultiple hsettles hended
    (.cons hfresh rfl hmultiple hsettles' hended' (.nil _))
  have htogether :=
    hshift.2 copier_local hsep (List.cons_ne_nil _ _) (by decide) hfresh rfl hmultiple
    hempty
  rw [List.map_nil, List.append_nil, hoffset, hoffset'] at htogether
  rcases htogether with ⟨q, hq, hqended, hqcalls, hqtotal, _⟩ | ⟨_, hlimit⟩
  · refine ⟨f, r, hf, hpush, hoffset, ⟨p₁, p₂, hplay₁, hplay₂, hahead⟩, q, hq, hqended, hqtotal, ?_⟩
    rw [Recorder.handed, hqcalls]
    exact hcalls
  · exact absurd hlimit (by decide)

end Copies

end Decompression
