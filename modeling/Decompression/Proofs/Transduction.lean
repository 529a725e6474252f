import Decompression.Codec

/-!
# What a Byte String Decodes To

A decompression primitive, seen from outside, turns bytes into bytes. Which bytes it
has been given so far fixes what it can have put out by now, and whether its stream
goes on, is over, or cannot be decoded. How the bytes were cut into pieces and how much
room there was do not come into it. A `Transduction` is this view; `Transduces` says
that the sessions of a codec follow it, whatever they are given and however much of it
they choose to read and to write in one step.

A stream is over, or broken, exactly once: no string at which it stops begins another
one. A string is running as long as none of its beginnings is such a stop.

`Reads` says what a whole string decodes to when it may hold several members. The
point of it is `reads_unique`: it depends on the string alone. It needs neither a
session nor a decoder, so two runs over the same bytes can be compared by comparing
each of them with it.

## Main definitions

* `Stop`, `Transduction`: How a stream can stop; what bytes are turned into.
* `Transduction.Running`: The stream has not stopped anywhere.
* `Decoded`: A session that has read and written certain bytes.
* `Transduction.Admits`: One step follows the transduction.
* `Transduces`: All steps of all sessions do.
* `RestsAtEnd`: A session that is over does nothing more.
* `Reading`, `Reads`: What a string decodes to, member by member.
* `Yields`: All that a string might decode to, whether its members end or not.

## Theorems

* `Cursor.rest_eq_between_append`: What was unread is what was read since and the rest.
* `stop_of_prefix`: A string has one stop at most.
* `reads_unique`: A string decodes to one thing at most.
-/

namespace Decompression

variable {S M : Type}

namespace Cursor

/-- The bytes that lie between two positions in the same buffer. -/
def between (before after : Cursor) : List UInt8 :=
  before.rest.take (after.index - before.index)

/-- What was unread is what was read since, and what is unread now. -/
theorem rest_eq_between_append {before after : Cursor} (hbytes : after.bytes = before.bytes)
    (hle : before.index ≤ after.index) : before.rest = before.between after ++ after.rest := by
  have hrest : after.rest = before.rest.drop (after.index - before.index) := by
    unfold rest
    rw [hbytes, List.drop_drop]
    congr 1
    omega
  rw [hrest, between, List.take_append_drop]

theorem between_self (cursor : Cursor) : cursor.between cursor = [] := by
  unfold between
  rw [Nat.sub_self, List.take_zero]

/-- Something lies between two positions in bounds exactly if the second is further on. -/
theorem between_eq_nil_iff {before after : Cursor} (hbytes : after.bytes = before.bytes)
    (hin : after.InBounds) : before.between after = [] ↔ ¬ before.index < after.index := by
  unfold InBounds at hin
  rw [hbytes] at hin
  unfold between rest
  rw [← List.length_eq_zero_iff, List.length_take, List.length_drop]
  omega

end Cursor

/-- How a stream can stop. -/
inductive Stop where
  | ended
  | failed (code : Int)
  deriving DecidableEq, Repr

/-- What bytes are turned into, and where the stream they belong to stops. -/
structure Transduction where
  output : List UInt8 → List UInt8
  stop : List UInt8 → Option Stop
  -- More input never takes output back.
  output_mono : ∀ {u v : List UInt8}, u <+: v → output u <+: output v
  -- No stop lies beyond another one.
  stop_unique : ∀ {u v : List UInt8} {a b : Stop}, u <+: v → stop u = some a →
    stop v = some b → u = v

namespace Transduction

variable (T : Transduction)

/-- The stream has not stopped at any beginning of these bytes. -/
def Running (u : List UInt8) : Prop :=
  ∀ p, p <+: u → T.stop p = none

/-- A string stops in one way at most, and at one place. -/
theorem stop_of_prefix {x p q : List UInt8} {a b : Stop} (hp : p <+: x) (hq : q <+: x)
    (ha : T.stop p = some a) (hb : T.stop q = some b) : p = q ∧ a = b := by
  have hpq : p = q := by
    rcases Nat.le_total p.length q.length with hle | hle
    · exact T.stop_unique (List.prefix_of_prefix_length_le hp hq hle) ha hb
    · exact (T.stop_unique (List.prefix_of_prefix_length_le hq hp hle) hb ha).symm
  subst hpq
  rw [ha] at hb
  exact ⟨rfl, Option.some.inj hb⟩

end Transduction

/-! ## Sessions -/

/-- A session that has read the bytes `u` and written the bytes `v` in successful steps,
    one of which was the end of its stream if `ended` is true. -/
inductive Decoded (c : Codec S M) : S → List UInt8 → List UInt8 → Bool → Prop
  | fresh {memory memory' : M} {s : S} (start : c.start memory = (.ok s, memory')) :
      Decoded c s [] [] false
  | step {s : S} {u v : List UInt8} {ended : Bool} {input : Cursor} {buffer : List UInt8}
      {stepped : Stepped S} {status : Status} (before : Decoded c s u v ended)
      (bounds : input.InBounds) (room : buffer ≠ [])
      (step : c.step s input (.ofBytes buffer) = stepped)
      (outcome : stepped.outcome = .ok status) :
      Decoded c stepped.session (u ++ input.between stepped.input) (v ++ stepped.output.front)
        (ended || decide (status = .streamEnd))

/-- A step from a session that has read `u` and written `v` follows the transduction. -/
structure Transduction.Admits (T : Transduction) (c : Codec S M) (s : S) (u v : List UInt8)
    (input : Cursor) (stepped : Stepped S) : Prop where
  -- The input cursor moves forward within its buffer.
  bytes : stepped.input.bytes = input.bytes
  forward : input.index ≤ stepped.input.index
  read : stepped.input.InBounds
  -- A failure shows in the bytes read so far and those on offer.
  failed : ∀ error, stepped.outcome = .error error →
    ∃ p, p <+: u ++ input.rest ∧ T.stop p = some (.failed error.code)
  -- The output cursor moves within its buffer, and the session counts what it writes.
  written : ∀ status, stepped.outcome = .ok status → stepped.output.InBounds
  count : ∀ status, stepped.outcome = .ok status →
    c.totalOut stepped.session = c.totalOut s + stepped.output.front.length
  -- What has been written is among what the bytes read are turned into.
  faithful : ∀ status, stepped.outcome = .ok status →
    v ++ stepped.output.front <+: T.output (u ++ input.between stepped.input)
  -- Writing nothing means that there is nothing left to read or to write.
  starved : stepped.outcome = .ok .progress → stepped.output.front = [] →
    stepped.input.rest = [] ∧ v = T.output (u ++ input.between stepped.input) ∧
      T.Running (u ++ input.between stepped.input)
  -- The end is met when exactly the stream has been read, and all of it written.
  ended : stepped.outcome = .ok .streamEnd →
    T.stop (u ++ input.between stepped.input) = some .ended ∧
      v ++ stepped.output.front = T.output (u ++ input.between stepped.input)

/-- The codec can always start a session, and its sessions, until they are over, follow
    the transduction. -/
structure Transduces (c : Codec S M) (T : Transduction) : Prop where
  start : ∀ memory, ∃ s memory', c.start memory = (.ok s, memory')
  fresh : ∀ {memory memory' s}, c.start memory = (.ok s, memory') → c.totalOut s = 0
  step : ∀ {s u v}, Decoded c s u v false → ∀ {input : Cursor} {buffer : List UInt8},
    input.InBounds → buffer ≠ [] → T.Admits c s u v input (c.step s input (.ofBytes buffer))

/-- What a session has written so far is among what it has read so far is turned into. -/
theorem Decoded.within {c : Codec S M} {T : Transduction} (hT : Transduces c T) {s : S}
    {u v : List UInt8} (h : Decoded c s u v false) : v <+: T.output u := by
  generalize hover : false = ended at h
  cases h with
  | fresh _ => exact List.nil_prefix
  | @step s u v ended input buffer stepped status before bounds room step outcome =>
      cases ended with
      | true => cases hover
      | false =>
          have hadmits := hT.step before bounds room
          rw [step] at hadmits
          exact hadmits.faithful status outcome

/-- A session that is over stays so: it reads and writes no more. -/
def RestsAtEnd (c : Codec S M) : Prop :=
  ∀ {s u v}, Decoded c s u v true → ∀ {input : Cursor} {buffer : List UInt8},
    input.InBounds → buffer ≠ [] →
    (c.step s input (.ofBytes buffer)).input = input ∧
    (c.step s input (.ofBytes buffer)).outcome = .ok .streamEnd ∧
    (c.step s input (.ofBytes buffer)).output.InBounds ∧
    (c.step s input (.ofBytes buffer)).output.front = [] ∧
    c.totalOut (c.step s input (.ofBytes buffer)).session = c.totalOut s

/-! ## Whole strings -/

/-- What a string decodes to. -/
inductive Reading where
  -- A stream has begun and goes on.
  | running (output : List UInt8)
  -- A stream is over.
  | ended (output : List UInt8)
  -- A stream cannot be decoded; no more than `bound` can have come out before.
  | failed (bound : List UInt8) (code : Int)
  deriving DecidableEq, Repr

namespace Reading

/-- What a string decodes to if it comes after complete members with output `done`. -/
def after (done : List UInt8) : Reading → Reading
  | .running output => .running (done ++ output)
  | .ended output => .ended (done ++ output)
  | .failed bound code => .failed (done ++ bound) code

theorem after_nil (r : Reading) : r.after [] = r := by
  cases r <;> rfl

theorem after_append (a b : List UInt8) (r : Reading) :
    r.after (a ++ b) = (r.after b).after a := by
  cases r <;> simp only [after, List.append_assoc]

end Reading

section Strings

variable (T : Transduction) (multiple : Bool)

/-- What a string decodes to. If several members are allowed, what follows the end of
    one is the next; otherwise it is ignored. -/
inductive Reads : List UInt8 → Reading → Prop
  | running {x : List UInt8} (h : T.Running x) : Reads x (.running (T.output x))
  | failed {x p : List UInt8} {code : Int} (hp : p <+: x)
      (h : T.stop p = some (.failed code)) : Reads x (.failed (T.output x) code)
  | ended {x : List UInt8} (h : T.stop x = some .ended) : Reads x (.ended (T.output x))
  | trailing {e t : List UInt8} (single : multiple = false) (h : T.stop e = some .ended)
      (ht : t ≠ []) : Reads (e ++ t) (.ended (T.output e))
  | member {e t : List UInt8} {r : Reading} (multi : multiple = true)
      (h : T.stop e = some .ended) (ht : t ≠ []) (rest : Reads t r) :
      Reads (e ++ t) (r.after (T.output e))

/-- The most that a string can have decoded to: some complete members, and whatever the
    bytes after them are turned into. -/
inductive Yields : List UInt8 → List UInt8 → Prop
  | last (x : List UInt8) : Yields x (T.output x)
  | member {e t out : List UInt8} (multi : multiple = true) (h : T.stop e = some .ended)
      (rest : Yields t out) : Yields (e ++ t) (T.output e ++ out)

variable {T multiple}

/-- A running string has no stop in it. -/
theorem not_running_of_stop {x p : List UInt8} {a : Stop} (hp : p <+: x)
    (h : T.stop p = some a) : ¬ T.Running x := by
  intro hrun
  rw [hrun p hp] at h
  cases h

/-- The reading of a string that stops at `p`, by the way in which it stops. -/
theorem reads_of_stop {x p : List UInt8} {a : Stop} {r : Reading} (hp : p <+: x)
    (ha : T.stop p = some a) (hr : Reads T multiple x r) :
    (∃ code, a = .failed code ∧ r = .failed (T.output x) code) ∨
    (a = .ended ∧ p = x ∧ r = .ended (T.output x)) ∨
    (a = .ended ∧ multiple = false ∧ p ≠ x ∧ r = .ended (T.output p)) ∨
    (∃ t r', a = .ended ∧ multiple = true ∧ x = p ++ t ∧ t ≠ [] ∧ Reads T multiple t r' ∧
      r = r'.after (T.output p)) := by
  cases hr with
  | running hrun => exact absurd hrun (not_running_of_stop hp ha)
  | failed hq hb =>
      rcases T.stop_of_prefix hp hq ha hb with ⟨_, rfl⟩
      exact Or.inl ⟨_, rfl, rfl⟩
  | ended hb =>
      rcases T.stop_of_prefix hp (List.prefix_refl x) ha hb with ⟨rfl, rfl⟩
      exact Or.inr (Or.inl ⟨rfl, rfl, rfl⟩)
  | @trailing e t hsingle hb ht =>
      rcases T.stop_of_prefix hp (List.prefix_append e t) ha hb with ⟨rfl, rfl⟩
      refine Or.inr (Or.inr (Or.inl ⟨rfl, hsingle, ?_, rfl⟩))
      intro hc
      exact ht (List.self_eq_append_right.mp hc)
  | @member e t r' hmulti hb ht hrest =>
      rcases T.stop_of_prefix hp (List.prefix_append e t) ha hb with ⟨rfl, rfl⟩
      exact Or.inr (Or.inr (Or.inr ⟨t, r', rfl, hmulti, rfl, ht, hrest, rfl⟩))

/-- A string decodes to one thing at most. -/
theorem reads_unique {x : List UInt8} {r r' : Reading} (h : Reads T multiple x r)
    (h' : Reads T multiple x r') : r = r' := by
  induction h generalizing r' with
  | running hrun =>
      cases h' with
      | running _ => rfl
      | failed hp hb => exact absurd hrun (not_running_of_stop hp hb)
      | ended hb => exact absurd hrun (not_running_of_stop (List.prefix_refl _) hb)
      | trailing _ hb _ => exact absurd hrun (not_running_of_stop (List.prefix_append _ _) hb)
      | member _ hb _ _ => exact absurd hrun (not_running_of_stop (List.prefix_append _ _) hb)
  | failed hp ha =>
      rcases reads_of_stop hp ha h' with
        ⟨code, hcode, hr⟩ | ⟨hc, _⟩ | ⟨hc, _⟩ | ⟨_, _, hc, _⟩
      · cases hcode
        exact hr.symm
      · cases hc
      · cases hc
      · cases hc
  | ended ha =>
      rcases reads_of_stop (List.prefix_refl _) ha h' with
        ⟨_, hc, _⟩ | ⟨_, _, hr⟩ | ⟨_, _, hne, _⟩ | ⟨t, _, _, _, hx, ht, _⟩
      · cases hc
      · exact hr.symm
      · exact absurd rfl hne
      · exact absurd (List.self_eq_append_right.mp hx) ht
  | @trailing e t hsingle ha ht =>
      rcases reads_of_stop (List.prefix_append e t) ha h' with
        ⟨_, hc, _⟩ | ⟨_, hx, _⟩ | ⟨_, _, _, hr⟩ | ⟨_, _, _, hmulti, _⟩
      · cases hc
      · exact absurd (List.self_eq_append_right.mp hx) ht
      · exact hr.symm
      · rw [hsingle] at hmulti
        cases hmulti
  | @member e t r hmulti ha ht _ ih =>
      rcases reads_of_stop (List.prefix_append e t) ha h' with
        ⟨_, hc, _⟩ | ⟨_, hx, _⟩ | ⟨_, hsingle, _⟩ | ⟨t', r'', _, _, hx, _, hrest, hr⟩
      · cases hc
      · exact absurd (List.self_eq_append_right.mp hx) ht
      · rw [hmulti] at hsingle
        cases hsingle
      · rw [hr, ih (by rwa [List.append_cancel_left hx])]

end Strings

end Decompression
