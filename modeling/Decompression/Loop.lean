/-!
# Bounded Loops

The decoder's loops have no bound of their own: how often they go round is up to
the primitive, the sink and the reader. A loop is therefore run for a number of
rounds that the caller chooses, and running out of them is one of the ways in which
a call ends without an answer.

A round notes events and either goes on from a new state or ends with a result.
The loop collects the events of all rounds in order.

## Main definitions

* `Fault`: Why a call has no answer at all.
* `Round`: What one round of a loop leaves behind.
* `Loop.run`: Runs rounds until one ends the loop.

## Theorems

* `Loop.run_succ_again`, `Loop.run_succ_done`, `Loop.run_succ_error`: Running a loop
  is running its first round and then the rest.
* `Loop.run_mono`: A loop that ends within some number of rounds ends in the same
  way within any larger number.
-/

namespace Decompression

/-- Why a call has no answer: not a failure that is reported to the caller, but a
    condition under which the call does not return. -/
inductive Fault where
  /-- The rounds allowed for a loop were used up. -/
  | outOfFuel
  /-- The input cursor was moved past the end of the input. -/
  | inputOverrun
  /-- The output cursor was moved past the end of the buffer. -/
  | outputOverrun
  /-- An offset left the range of 64-bit numbers. -/
  | offsetOverflow
  /-- The session's own count of its output disagrees with the decoder's. -/
  | offsetMismatch
  deriving DecidableEq, Repr

/-- What one round of a loop leaves behind. -/
inductive Round (ε σ β : Type) where
  /-- The loop goes on from a new state. -/
  | again (events : List ε) (state : σ)
  /-- The loop is over. -/
  | done (events : List ε) (result : β)

/-- The end of a loop: the events of all its rounds and its result. -/
structure Logged (ε β : Type) where
  /-- The events, in order. -/
  events : List ε
  /-- The result. -/
  result : β

namespace Loop

variable {ε σ β : Type}

/-- Runs rounds until one ends the loop; `past` holds the events so far, the latest first. -/
def runFrom (round : σ → Except Fault (Round ε σ β)) :
    Nat → List ε → σ → Except Fault (Logged ε β)
  | 0, _, _ => .error .outOfFuel
  | fuel + 1, past, state =>
    match round state with
    | .error fault => .error fault
    | .ok (.again events next) => runFrom round fuel (events.reverse ++ past) next
    | .ok (.done events result) => .ok ⟨past.reverse ++ events, result⟩

/-- Runs at most `fuel` rounds from a state. -/
def run (round : σ → Except Fault (Round ε σ β)) (fuel : Nat) (state : σ) :
    Except Fault (Logged ε β) :=
  runFrom round fuel [] state

/-- Puts earlier events in front of those of a finished loop. -/
def preceded (events : List ε) : Except Fault (Logged ε β) → Except Fault (Logged ε β)
  | .error fault => .error fault
  | .ok r => .ok ⟨events ++ r.events, r.result⟩

theorem runFrom_eq (round : σ → Except Fault (Round ε σ β)) (fuel : Nat) (past : List ε)
    (state : σ) : runFrom round fuel past state = preceded past.reverse (run round fuel state) := by
  induction fuel generalizing past state with
  | zero => rfl
  | succ fuel ih =>
    simp only [run, runFrom]
    cases hround : round state with
    | error fault => rfl
    | ok r =>
      cases r with
      | again events next =>
        simp only [ih (events.reverse ++ past), ih (events.reverse ++ [])]
        cases run round fuel next with
        | error fault => rfl
        | ok r => simp [preceded]
      | done events result => simp [preceded]

theorem run_succ_error {round : σ → Except Fault (Round ε σ β)} {state : σ} {fault : Fault}
    (h : round state = .error fault) (fuel : Nat) :
    run round (fuel + 1) state = .error fault := by
  simp only [run, runFrom, h]

theorem run_succ_done {round : σ → Except Fault (Round ε σ β)} {state : σ} {events : List ε}
    {result : β} (h : round state = .ok (.done events result)) (fuel : Nat) :
    run round (fuel + 1) state = .ok ⟨events, result⟩ := by
  simp only [run, runFrom, h, List.reverse_nil, List.nil_append]

theorem run_succ_again {round : σ → Except Fault (Round ε σ β)} {state next : σ} {events : List ε}
    (h : round state = .ok (.again events next)) (fuel : Nat) :
    run round (fuel + 1) state = preceded events (run round fuel next) := by
  rw [run, runFrom, h]
  simp only [List.append_nil]
  rw [runFrom_eq, List.reverse_reverse]

/-- A loop that ends within some number of rounds ends in the same way within any
    larger number. -/
theorem run_mono {round : σ → Except Fault (Round ε σ β)} {fuel : Nat} {state : σ}
    {r : Logged ε β} (h : run round fuel state = .ok r) (more : Nat) :
    run round (fuel + more) state = .ok r := by
  induction fuel generalizing state r with
  | zero => cases h
  | succ fuel ih =>
    rw [Nat.succ_add]
    cases hround : round state with
    | error fault => rw [run_succ_error hround] at h; cases h
    | ok q =>
      cases q with
      | done events result => rw [run_succ_done hround] at h ⊢; exact h
      | again events next =>
        rw [run_succ_again hround] at h ⊢
        cases hnext : run round fuel next with
        | error fault => rw [hnext] at h; cases h
        | ok q => rw [ih hnext, ← hnext]; exact h

end Loop

end Decompression
