import Decompression.Decoder.Basic

/-!
# Sessions Started and Refused

What a decoder looks like after a session was asked for. There are two occasions, a
reset and a further member, and they differ in one thing only: the offset at which the
new session begins. Both end the live session first, so the codec starts from what is
left when that session is gone, which is `retire`.

Everything a later proof needs to know about `reset`, `nextMember`, `fail` and `finish`
is said here once; none of them is unfolded elsewhere.

## Main definitions

* `Decoder.startedAt`: The decoder with a fresh session that begins at an offset.
* `Decoder.refusedAt`: The decoder without a session, after none could be started.

## Theorems

* `Decoder.reset_of_ok`, `Decoder.reset_of_error`: What a reset leaves behind.
* `Decoder.nextMember_of_ok`, `Decoder.nextMember_of_error`: What asking for a further
  member leaves behind.
* `Decoder.fail_decoder`, `Decoder.fail_events`, `Decoder.fail_result`: A failure is a
  reset with an event before it, and its own error.
-/

namespace Decompression.Decoder

variable {S M : Type} {c : Codec S M}

/-- The decoder with the fresh session `s`, which begins at `offset`. -/
def startedAt (d : Decoder c) (offset : Nat) (s : S) (memory : M) : Decoder c :=
  { d with
    memory := memory, session := some s, outputOffset := offset, memberBase := offset,
    consumed := false, finished := false }

/-- The decoder without a session, after one that was to begin at `offset` could not
    be started. -/
def refusedAt (d : Decoder c) (offset : Nat) (memory : M) : Decoder c :=
  { d with
    memory := memory, session := none, outputOffset := offset, memberBase := offset,
    consumed := false, finished := false }

theorem endSession_eq (d : Decoder c) :
    d.endSession = { d with memory := d.retire, session := none } := by
  cases d with
  | mk memory session outputOffset memberBase consumed finished bufferSize multipleMembers =>
      cases session <;> rfl

theorem retire_of_some {d : Decoder c} {s : S} (h : d.session = some s) :
    d.retire = c.stop s d.memory := by
  simp only [retire, endSession, h]

theorem retire_of_none {d : Decoder c} (h : d.session = none) : d.retire = d.memory := by
  simp only [retire, endSession, h]

theorem reset_of_ok {d : Decoder c} {s : S} {memory : M}
    (h : c.start d.retire = (.ok s, memory)) :
    d.reset = ⟨d.startedAt 0 s memory, [.sessionStarted], .ok ()⟩ := by
  simp only [reset, beginSession, endSession_eq d, h, startedAt]

theorem reset_of_error {d : Decoder c} {cause : IoError} {memory : M}
    (h : c.start d.retire = (.error cause, memory)) :
    d.reset = ⟨d.refusedAt 0 memory, [.startFailed (.start cause)], .error (.start cause)⟩ := by
  simp only [reset, beginSession, endSession_eq d, h, refusedAt]

theorem nextMember_of_ok {d : Decoder c} {s : S} {memory : M}
    (h : c.start d.retire = (.ok s, memory)) :
    d.nextMember =
      ⟨d.startedAt d.outputOffset s memory, [.nextMember d.outputOffset], .ok ()⟩ := by
  simp only [nextMember, beginSession, endSession_eq d, h, startedAt]

theorem nextMember_of_error {d : Decoder c} {cause : IoError} {memory : M}
    (h : c.start d.retire = (.error cause, memory)) :
    d.nextMember = ⟨d.refusedAt d.outputOffset memory,
      [.nextMember d.outputOffset, .startFailed (.start cause)], .error (.start cause)⟩ := by
  simp only [nextMember, beginSession, endSession_eq d, h, refusedAt]

/-- A reset gives the decoder a session that begins at zero, or leaves it without one
    at offset zero. -/
theorem reset_cases (d : Decoder c) :
    (∃ s memory, c.start d.retire = (.ok s, memory) ∧
      d.reset = ⟨d.startedAt 0 s memory, [.sessionStarted], .ok ()⟩) ∨
    (∃ cause memory, c.start d.retire = (.error cause, memory) ∧
      d.reset =
        ⟨d.refusedAt 0 memory, [.startFailed (.start cause)], .error (.start cause)⟩) := by
  rcases h : c.start d.retire with ⟨cause | s, memory⟩
  · exact Or.inr ⟨cause, memory, rfl, reset_of_error h⟩
  · exact Or.inl ⟨s, memory, rfl, reset_of_ok h⟩

section Failures

variable {α : Type} (d : Decoder c) (noted : Event) (error : DecodeError)

@[simp] theorem failAfter_decoder :
    (d.failAfter noted error : Outcome c α).decoder = d.reset.decoder :=
  rfl

@[simp] theorem failAfter_events :
    (d.failAfter noted error : Outcome c α).events = noted :: d.reset.events :=
  rfl

@[simp] theorem failAfter_result :
    (d.failAfter noted error : Outcome c α).result = .error error :=
  rfl

@[simp] theorem fail_decoder : (d.fail error : Outcome c α).decoder = d.reset.decoder :=
  rfl

@[simp] theorem fail_events :
    (d.fail error : Outcome c α).events = .failed error :: d.reset.events :=
  rfl

@[simp] theorem fail_result : (d.fail error : Outcome c α).result = .error error :=
  rfl

end Failures

theorem finish_of_pending {d : Decoder c} (h : d.isPending = true) :
    d.finish = d.fail (.truncated d.outputOffset) := by
  simp only [finish, h, if_true]

theorem finish_of_not_pending {d : Decoder c} (h : d.isPending = false) :
    d.finish = ⟨d, [], .ok ()⟩ := by
  simp only [finish, h, Bool.false_eq_true, if_false]

end Decompression.Decoder
