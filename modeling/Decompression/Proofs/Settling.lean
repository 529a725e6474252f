import Decompression.Loop

/-!
# Loops Without Fuel

What a bounded loop comes to when its bound is out of the way. A call that takes a
number of rounds settles on an outcome if it has this outcome for every large enough
number. Running out of rounds is not an outcome to settle on, so a call that settles
is one that returns, or that faults for a reason of its own.

Loops are nested: one round of an outer loop is a whole run of an inner one, and both
are given the same number of rounds. The bound therefore cannot be taken off the outer
loop alone. `Loop.Ends` takes it off both at once: it is the run of a loop round by
round, where every round is one that settles. `settles_run_iff` says that the loop as
it is run comes to the same, and everything that is proved about whole runs is an
induction over `Loop.Ends`.

## Main definitions

* `Settles`: What a call comes to, given enough rounds.
* `Stable`: More rounds never change an outcome.
* `Round.All`: What holds of the state or the result that a round leads to.
* `Loop.Ends`: The run of a loop, round by round.
* `Loop.Leads`: How far a loop comes before its last round.
* `Loop.roundAfter`: A round with earlier events.

## Theorems

* `Settles.unique`: A call settles on one outcome at most.
* `Stable.settles`: One outcome of a stable call is what it settles on.
* `stable_run`: Running a loop is stable if its rounds are.
* `settles_run_iff`: A loop settles on what its rounds lead to.
* `Ends.last`, `Ends.faulty`: A loop that returns comes to a last round, and one that faults to a
  round that does.
* `exists_ends_of_wf`, `exists_ends`: A loop comes to an end if each round leaves less to be done.
-/

namespace Decompression

section Settling

variable {α β : Type}

/-- With enough rounds the call has this outcome, and it is not that the rounds
    were used up. -/
def Settles (call : Nat → Except Fault α) (o : Except Fault α) : Prop :=
  o ≠ .error .outOfFuel ∧ ∃ enough, ∀ fuel, enough ≤ fuel → call fuel = o

/-- Once the call has an outcome, more rounds do not change it. -/
def Stable (call : Nat → Except Fault α) : Prop :=
  ∀ fuel, call fuel ≠ .error .outOfFuel → ∀ more, fuel ≤ more → call more = call fuel

theorem ok_ne_outOfFuel (a : α) : (Except.ok a : Except Fault α) ≠ .error .outOfFuel := by
  simp only [ne_eq, reduceCtorEq, not_false_eq_true]

theorem Settles.unique {call : Nat → Except Fault α} {o o' : Except Fault α}
    (h : Settles call o) (h' : Settles call o') : o = o' := by
  rcases h with ⟨_, n, hn⟩
  rcases h' with ⟨_, n', hn'⟩
  rw [← hn (max n n') (Nat.le_max_left n n'), ← hn' (max n n') (Nat.le_max_right n n')]

theorem Settles.exists_fuel {call : Nat → Except Fault α} {o : Except Fault α}
    (h : Settles call o) : ∃ fuel, call fuel = o := by
  rcases h with ⟨_, n, hn⟩
  exact ⟨n, hn n (Nat.le_refl n)⟩

theorem Stable.settles {call : Nat → Except Fault α} (hs : Stable call) {fuel : Nat}
    {o : Except Fault α} (h : call fuel = o) (hne : o ≠ .error .outOfFuel) : Settles call o := by
  refine ⟨hne, fuel, fun more hle => ?_⟩
  rw [hs fuel (by rw [h]; exact hne) more hle, h]

theorem settles_const_iff {a o : Except Fault α} :
    Settles (fun _ => a) o ↔ a = o ∧ o ≠ .error .outOfFuel := by
  constructor
  · intro h
    rcases h.exists_fuel with ⟨_, ha⟩
    exact ⟨ha, h.1⟩
  · rintro ⟨ha, hne⟩
    exact ⟨hne, 0, fun _ _ => ha⟩

theorem Settles.of_const {a o : Except Fault α} (h : Settles (fun _ => a) o) : a = o :=
  (settles_const_iff.mp h).1

theorem settles_of_ok {a : Except Fault α} {x : α} (h : a = .ok x) : Settles (fun _ => a) (.ok x) :=
  settles_const_iff.mpr ⟨h, ok_ne_outOfFuel x⟩

-- A fault that one call settles on is one that others can settle on.
theorem Settles.of_fault {call : Nat → Except Fault α} {fault : Fault}
    (hs : Settles call (.error fault)) {b : Except Fault β} (h : b = .error fault) :
    Settles (fun _ => b) (.error fault) :=
  settles_const_iff.mpr ⟨h, fun hc => hs.1 (by rw [Except.error.inj hc])⟩

theorem stable_const (a : Except Fault α) : Stable fun _ => a :=
  fun _ _ _ _ => rfl

theorem map_eq_ok {ε : Type} {a : Except ε α} {f : α → β} {b : β} (h : a.map f = .ok b) :
    ∃ x, a = .ok x ∧ f x = b := by
  cases a with
  | error error => cases h
  | ok x => exact ⟨x, rfl, Except.ok.inj h⟩

theorem map_eq_error {ε : Type} {a : Except ε α} {f : α → β} {error : ε}
    (h : a.map f = .error error) : a = .error error := by
  cases a with
  | error error' => exact congrArg Except.error (Except.error.inj h)
  | ok x => cases h

theorem map_map {γ : Type} (a : Except Fault α) (f : α → β) (g : β → γ) :
    (a.map f).map g = a.map fun x => g (f x) := by
  cases a <;> rfl

/-- What is done with the result of a call does not touch its faults. -/
theorem map_eq_outOfFuel_iff {a : Except Fault α} {f : α → β} :
    a.map f = .error .outOfFuel ↔ a = .error .outOfFuel := by
  cases a with
  | error fault => simp only [Except.map, Except.error.injEq]
  | ok x => simp only [Except.map, reduceCtorEq]

theorem Stable.map {call : Nat → Except Fault α} (hs : Stable call) (f : α → β) :
    Stable fun fuel => (call fuel).map f := by
  intro fuel hne more hle
  have hcall : call fuel ≠ .error .outOfFuel := fun hc => hne (map_eq_outOfFuel_iff.mpr hc)
  simp only [hs fuel hcall more hle]

theorem settles_map_iff {call : Nat → Except Fault α} (hs : Stable call) {f : α → β}
    {o : Except Fault β} :
    Settles (fun fuel => (call fuel).map f) o ↔ ∃ a, Settles call a ∧ a.map f = o := by
  constructor
  · intro h
    rcases h.exists_fuel with ⟨n, hn⟩
    refine ⟨call n, hs.settles rfl fun hc => h.1 ?_, hn⟩
    rw [← hn, hc]
    rfl
  · rintro ⟨a, ⟨hne, n, hn⟩, rfl⟩
    refine ⟨fun hc => hne (map_eq_outOfFuel_iff.mp hc), n, fun fuel hle => ?_⟩
    simp only [hn fuel hle]

theorem bind_eq_ok {a : Except Fault α} {k : α → Except Fault β} {b : β} (h : a.bind k = .ok b) :
    ∃ x, a = .ok x ∧ k x = .ok b := by
  cases a with
  | error fault => cases h
  | ok x => exact ⟨x, rfl, h⟩

-- What goes on after a call has an outcome has one by the same bound.
theorem Stable.bind {call : Nat → Except Fault α} (hs : Stable call)
    {k : Nat → α → Except Fault β} (hk : ∀ a, Stable fun fuel => k fuel a) :
    Stable fun fuel => (call fuel).bind (k fuel) := by
  intro fuel hne more hle
  dsimp only at hne ⊢
  cases hcall : call fuel with
  | error fault =>
      rw [hcall] at hne
      have hfault : call fuel ≠ .error .outOfFuel := by
        rw [hcall]
        exact fun hc => hne (by rw [Except.error.inj hc]; rfl)
      rw [hs fuel hfault more hle, hcall]
      rfl
  | ok a =>
      rw [hcall] at hne
      rw [hs fuel (by rw [hcall]; exact ok_ne_outOfFuel a) more hle, hcall]
      exact hk a fuel hne more hle

theorem settles_bind_iff {call : Nat → Except Fault α} (hs : Stable call)
    {k : Nat → α → Except Fault β} (hk : ∀ a, Stable fun fuel => k fuel a) {b : β} :
    Settles (fun fuel => (call fuel).bind (k fuel)) (.ok b) ↔
      ∃ a, Settles call (.ok a) ∧ Settles (fun fuel => k fuel a) (.ok b) := by
  constructor
  · intro h
    rcases h.exists_fuel with ⟨fuel, hfuel⟩
    rcases bind_eq_ok hfuel with ⟨a, ha, hb⟩
    exact ⟨a, hs.settles ha (ok_ne_outOfFuel a), (hk a).settles hb (ok_ne_outOfFuel b)⟩
  · rintro ⟨a, ⟨_, n, hn⟩, ⟨hne, m, hm⟩⟩
    refine ⟨hne, max n m, fun fuel hle => ?_⟩
    dsimp only
    rw [hn fuel (by omega)]
    exact hm fuel (by omega)

end Settling

/-- The round goes on from a state with the one property, or ends with a result with the other. -/
def Round.All {ε σ β : Type} (I : σ → Prop) (Q : β → Prop) : Round ε σ β → Prop
  | .again _ state => I state
  | .done _ result => Q result

namespace Loop

variable {ε σ β : Type}

/-- The run of a loop, round by round: what comes of it from a state. The rounds may
    need a bound of their own, and each is one that settles. -/
inductive Ends (round : Nat → σ → Except Fault (Round ε σ β)) :
    σ → Except Fault (Logged ε β) → Prop
  -- A round faults
  | fault {s : σ} {f : Fault} : Settles (fun fuel => round fuel s) (.error f) →
      Ends round s (.error f)
  -- A round is the last
  | done {s : σ} {events : List ε} {result : β} :
      Settles (fun fuel => round fuel s) (.ok (.done events result)) →
      Ends round s (.ok ⟨events, result⟩)
  -- The loop goes on from a new state
  | again {s s' : σ} {events : List ε} {o : Except Fault (Logged ε β)} :
      Settles (fun fuel => round fuel s) (.ok (.again events s')) → Ends round s' o →
      Ends round s (preceded events o)

theorem preceded_eq_map (events : List ε) (o : Except Fault (Logged ε β)) :
    preceded events o = o.map fun r => ⟨events ++ r.events, r.result⟩ := by
  cases o <;> rfl

theorem preceded_ok (events : List ε) (r : Logged ε β) :
    preceded events (.ok r) = .ok ⟨events ++ r.events, r.result⟩ :=
  rfl

theorem preceded_eq_outOfFuel_iff {events : List ε} {o : Except Fault (Logged ε β)} :
    preceded events o = .error .outOfFuel ↔ o = .error .outOfFuel := by
  rw [preceded_eq_map, map_eq_outOfFuel_iff]

theorem preceded_append (as bs : List ε) (o : Except Fault (Logged ε β)) :
    preceded (as ++ bs) o = preceded as (preceded bs o) := by
  cases o with
  | error fault => rfl
  | ok r => simp only [preceded, List.append_assoc]

theorem settles_preceded {call call' : Nat → Except Fault (Logged ε β)} {events : List ε}
    {o : Except Fault (Logged ε β)} (h : ∀ fuel, call fuel = preceded events (call' fuel))
    (hs : Settles call' o) : Settles call (preceded events o) := by
  rcases hs with ⟨hne, n, hn⟩
  exact ⟨fun hc => hne (preceded_eq_outOfFuel_iff.mp hc), n, fun fuel hle => by rw [h, hn fuel hle]⟩

/-- Earlier events come before those of a round. -/
def roundAfter (earlier : List ε) : Round ε σ β → Round ε σ β
  | .again events s => .again (earlier ++ events) s
  | .done events result => .done (earlier ++ events) result

-- Two states with the same first round are at the start of the same run.
theorem run_of_first {round : σ → Except Fault (Round ε σ β)} {s s' : σ} {events : List ε}
    (h : round s = (round s').map (roundAfter events)) (fuel : Nat) :
    run round fuel s = preceded events (run round fuel s') := by
  cases fuel with
  | zero => rfl
  | succ fuel =>
      cases hr : round s' with
      | error fault =>
          rw [hr] at h
          rw [run_succ_error h, run_succ_error hr]
          rfl
      | ok r =>
          rw [hr] at h
          cases r with
          | again later next => rw [run_succ_again h, run_succ_again hr, preceded_append]
          | done later result =>
              rw [run_succ_done h, run_succ_done hr]
              rfl

variable {round : Nat → σ → Except Fault (Round ε σ β)}

/-- More rounds for the loop and for each of its rounds do not change its outcome. -/
theorem run_eq_of_le (hround : ∀ s, Stable fun fuel => round fuel s) {fuel fuel' : Nat}
    (hfuel : fuel ≤ fuel') : ∀ {n n' : Nat} {s : σ}, n ≤ n' →
      run (round fuel) n s ≠ .error .outOfFuel → run (round fuel') n' s = run (round fuel) n s := by
  intro n
  induction n with
  | zero => intro n' s _ hne; exact absurd rfl hne
  | succ n ih =>
      intro n' s hle hne
      rcases Nat.exists_eq_add_of_le hle with ⟨k, rfl⟩
      rw [Nat.succ_add]
      have hstable : round fuel s ≠ .error .outOfFuel → round fuel' s = round fuel s :=
        fun h => hround s fuel h fuel' hfuel
      cases hr : round fuel s with
      | error fault =>
          rw [run_succ_error hr] at hne ⊢
          have hfault : fault ≠ .outOfFuel := fun hc => hne (by rw [hc])
          refine run_succ_error ?_ (n + k)
          rw [hstable (by rw [hr]; exact fun hc => hfault (Except.error.inj hc)), hr]
      | ok q =>
          rw [hr] at hstable
          have hr' := hstable (ok_ne_outOfFuel _)
          cases q with
          | done events result => rw [run_succ_done hr, run_succ_done hr']
          | again events next =>
              rw [run_succ_again hr] at hne ⊢
              rw [run_succ_again hr',
                ih (Nat.le_add_right n k) fun h => hne (preceded_eq_outOfFuel_iff.mpr h)]

/-- Running a loop is stable if its rounds are. -/
theorem stable_run (hround : ∀ s, Stable fun fuel => round fuel s) (s : σ) :
    Stable fun fuel => run (round fuel) fuel s :=
  fun _ hne _ hle => run_eq_of_le hround hle hle hne

/-- A loop that has an outcome got there round by round. -/
theorem ends_of_run (hround : ∀ s, Stable fun fuel => round fuel s) (fuel : Nat) :
    ∀ {n : Nat} {s : σ} {o : Except Fault (Logged ε β)},
      run (round fuel) n s = o → o ≠ .error .outOfFuel → Ends round s o := by
  intro n
  induction n with
  | zero => intro s o h hne; exact absurd h.symm hne
  | succ n ih =>
      intro s o h hne
      cases hr : round fuel s with
      | error fault =>
          rw [run_succ_error hr] at h
          rw [← h] at hne ⊢
          exact .fault ((hround s).settles hr fun hc => hne (by rw [Except.error.inj hc]))
      | ok q =>
          have hs := (hround s).settles hr (ok_ne_outOfFuel _)
          cases q with
          | done events result =>
              rw [run_succ_done hr] at h
              rw [← h]
              exact .done hs
          | again events next =>
              rw [run_succ_again hr] at h
              rw [← h] at hne ⊢
              exact .again hs (ih rfl fun hc => hne (preceded_eq_outOfFuel_iff.mpr hc))

/-- What every round of a loop keeps up leads to what its last round makes of it. -/
theorem run_induction {round : σ → Except Fault (Round ε σ β)} {I : σ → Prop} {Q : β → Prop}
    (hagain : ∀ s events next, I s → round s = .ok (.again events next) → I next)
    (hdone : ∀ s events result, I s → round s = .ok (.done events result) → Q result)
    {fuel : Nat} {s : σ} {r : Logged ε β} (hs : I s) (h : run round fuel s = .ok r) :
    Q r.result := by
  induction fuel generalizing s r with
  | zero => cases h
  | succ fuel ih =>
      cases hround : round s with
      | error fault =>
          rw [run_succ_error hround] at h
          cases h
      | ok q =>
          cases q with
          | done events result =>
              rw [run_succ_done hround] at h
              cases h
              exact hdone s events result hs hround
          | again events next =>
              rw [run_succ_again hround, preceded_eq_map] at h
              cases hrest : run round fuel next with
              | error fault => rw [hrest] at h; cases h
              | ok r' =>
                  rw [hrest] at h
                  cases h
                  exact ih (r := r') (hagain s events next hs hround) hrest

/-- The same, told of each round at once. -/
theorem run_all {round : σ → Except Fault (Round ε σ β)} {I : σ → Prop} {Q : β → Prop}
    (hround : ∀ s r, I s → round s = .ok r → r.All I Q) {fuel : Nat} {s : σ} {r : Logged ε β}
    (hs : I s) (h : run round fuel s = .ok r) : Q r.result :=
  run_induction (fun s events next hI hr => hround s (.again events next) hI hr)
    (fun s events result hI hr => hround s (.done events result) hI hr) hs h

/-- Round by round to an outcome: what holds of a last round, and of a round if it holds of those
    that follow it, holds of all of them. -/
theorem Ends.ok_induction {motive : (s : σ) → (r : Logged ε β) → Ends round s (.ok r) → Prop}
    (done : ∀ {s : σ} {events : List ε} {result : β}
      (hs : Settles (fun fuel => round fuel s) (.ok (.done events result))),
      motive s ⟨events, result⟩ (.done hs))
    (again : ∀ {s next : σ} {events : List ε} {r : Logged ε β}
      (hs : Settles (fun fuel => round fuel s) (.ok (.again events next)))
      (hrest : Ends round next (.ok r)), motive next r hrest →
      motive s ⟨events ++ r.events, r.result⟩ (.again hs hrest))
    {s : σ} {r : Logged ε β} (h : Ends round s (.ok r)) : motive s r h := by
  have hall : ∀ {s : σ} {o : Except Fault (Logged ε β)} (h : Ends round s o) {r : Logged ε β}
      (hr : o = .ok r), motive s r (hr ▸ h) := by
    intro s o h
    induction h with
    | fault _ => intro r hr; cases hr
    | done hs =>
        intro r hr
        cases hr
        exact done hs
    | @again s next events o hs hrest ih =>
        intro r hr
        cases o with
        | error fault => cases hr
        | ok r' =>
            cases hr
            exact again hs hrest (ih rfl)
  exact hall h rfl

/-- The rounds of a loop from one state to another, neither of which need be an end of it. -/
inductive Leads (round : Nat → σ → Except Fault (Round ε σ β)) : σ → List ε → σ → Prop
  -- No round yet
  | here {s : σ} : Leads round s [] s
  -- A first round, and what comes after it
  | again {s next last : σ} {events later : List ε} :
      Settles (fun fuel => round fuel s) (.ok (.again events next)) →
      Leads round next later last → Leads round s (events ++ later) last

/-- A loop that returns comes to a last round. -/
theorem Ends.last {s : σ} {r : Logged ε β} (h : Ends round s (.ok r)) :
    ∃ earlier s' events, Leads round s earlier s' ∧
      Settles (fun fuel => round fuel s') (.ok (.done events r.result)) ∧
      r.events = earlier ++ events := by
  induction h using Ends.ok_induction with
  | @done s events result hs => exact ⟨[], s, events, .here, hs, rfl⟩
  | again hs _ ih =>
      rcases ih with ⟨earlier, s', later, hleads, hlast, hevents⟩
      exact ⟨_, s', later, .again hs hleads, hlast, by rw [hevents, List.append_assoc]⟩

/-- A loop that faults comes to a round that does. -/
theorem Ends.faulty {s : σ} {f : Fault} (h : Ends round s (.error f)) :
    ∃ earlier s', Leads round s earlier s' ∧ Settles (fun fuel => round fuel s') (.error f) := by
  generalize ho : (.error f : Except Fault (Logged ε β)) = o at h
  induction h with
  | @fault s f' hs =>
      cases ho
      exact ⟨[], s, .here, hs⟩
  | done _ => cases ho
  | @again _ _ _ o hs _ ih =>
      cases o with
      | ok r => cases ho
      | error f' =>
          cases ho
          rcases ih rfl with ⟨earlier, s', hleads, hfault⟩
          exact ⟨_, s', .again hs hleads, hfault⟩

/-- What every round keeps up holds as far as the loop comes. -/
theorem Leads.keeps {I : σ → Prop} {s s' : σ} {events : List ε} (h : Leads round s events s')
    (hagain : ∀ {a events next}, I a →
      Settles (fun fuel => round fuel a) (.ok (.again events next)) → I next)
    (hs : I s) : I s' := by
  induction h with
  | here => exact hs
  | again first _ ih => exact ih (hagain hs first)

theorem Ends.ne_outOfFuel {s : σ} {o : Except Fault (Logged ε β)} (h : Ends round s o) :
    o ≠ .error .outOfFuel := by
  induction h with
  | fault hs => exact fun hc => hs.1 (by rw [Except.error.inj hc])
  | done _ => exact ok_ne_outOfFuel _
  | again _ _ ih => exact fun hc => ih (preceded_eq_outOfFuel_iff.mp hc)

/-- Enough rounds get a loop to where its rounds lead. -/
theorem Ends.settles (hround : ∀ s, Stable fun fuel => round fuel s) {s : σ}
    {o : Except Fault (Logged ε β)} (h : Ends round s o) :
    Settles (fun fuel => run (round fuel) fuel s) o := by
  have hrun : ∃ fuel, run (round fuel) fuel s = o := by
    induction h with
    | fault hs =>
        rcases hs with ⟨_, n, hn⟩
        exact ⟨n + 1, run_succ_error (hn (n + 1) (by omega)) n⟩
    | done hs =>
        rcases hs with ⟨_, n, hn⟩
        exact ⟨n + 1, run_succ_done (hn (n + 1) (by omega)) n⟩
    | @again s s' events o hs htail ih =>
        rcases hs with ⟨_, n, hn⟩
        rcases ih with ⟨m, hm⟩
        -- The bound has to be large enough for this round and for all that follow.
        refine ⟨max n m + 1, ?_⟩
        rw [run_succ_again (hn (max n m + 1) (by omega)),
          run_eq_of_le hround (by omega : m ≤ max n m + 1) (Nat.le_max_right n m)
            (by rw [hm]; exact htail.ne_outOfFuel), hm]
  rcases hrun with ⟨fuel, hfuel⟩
  exact (stable_run hround s).settles hfuel h.ne_outOfFuel

/-- A loop comes to an end if its rounds do, and if each leaves less to be done. -/
theorem exists_ends_of_wf {I : σ → Prop} {ρ : Type} {less : ρ → ρ → Prop} (hwf : WellFounded less)
    (rank : σ → ρ) (hsettles : ∀ {s}, I s → ∃ r, Settles (fun fuel => round fuel s) r)
    (hless : ∀ {s events next}, I s →
      Settles (fun fuel => round fuel s) (.ok (.again events next)) →
      I next ∧ less (rank next) (rank s)) {s : σ} (hs : I s) : ∃ o, Ends round s o := by
  induction hrank : rank s using hwf.induction generalizing s with
  | _ r ih =>
      subst hrank
      rcases hsettles hs with ⟨fault | ⟨events, next⟩ | ⟨events, result⟩, hround⟩
      · exact ⟨_, .fault hround⟩
      · rcases hless hs hround with ⟨hnext, hlt⟩
        rcases ih (rank next) hlt hnext rfl with ⟨o, ho⟩
        exact ⟨_, .again hround ho⟩
      · exact ⟨_, .done hround⟩

theorem exists_ends {I : σ → Prop} (measure : σ → Nat)
    (hsettles : ∀ {s}, I s → ∃ r, Settles (fun fuel => round fuel s) r)
    (hless : ∀ {s events next}, I s →
      Settles (fun fuel => round fuel s) (.ok (.again events next)) →
      I next ∧ measure next < measure s) {s : σ} (hs : I s) : ∃ o, Ends round s o :=
  exists_ends_of_wf Nat.lt_wfRel.wf measure hsettles hless hs

/-- A loop settles on what its rounds lead to. -/
theorem settles_run_iff (hround : ∀ s, Stable fun fuel => round fuel s) {s : σ}
    {o : Except Fault (Logged ε β)} :
    Settles (fun fuel => run (round fuel) fuel s) o ↔ Ends round s o := by
  constructor
  · intro h
    rcases h.exists_fuel with ⟨fuel, hfuel⟩
    exact ends_of_run hround fuel hfuel h.1
  · exact fun h => h.settles hround

end Loop

end Decompression
