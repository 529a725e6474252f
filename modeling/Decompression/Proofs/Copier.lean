import Decompression.Decoder.Basic
import Decompression.Proofs.Transduction

/-!
# A Codec That Copies

The smallest primitive with a stream format of its own: every byte stands for itself,
and a zero is the end of the stream. It copies as much as there is room for, and reads
no more than it copies, except for the zero. Statements that are made under conditions
on a primitive are tried out on it.

## Main definitions

* `copier`: The codec.
* `Decoder.copying`: A decoder over it.
* `Codec.rationed`: A codec that runs out of sessions.
* `upToZero`: What a byte string stands for.
* `copying`: The transduction that the sessions of `copier` follow.

## Theorems

* `copied`: What one step does.
* `copier_transduces`: The codec follows the transduction.
* `copier_rests`: A session that is over does nothing more.
-/

namespace Decompression

/-- A codec that copies bytes up to a zero, which ends the stream. A session is the number
    of bytes it has copied, and a zero that it has read is remembered. -/
def copier : Codec (Nat × Bool) Unit where
  name := "copy"
  start memory := (.ok (0, false), memory)
  stop _ memory := memory
  step s input output :=
    if s.2 then ⟨s, input, output, .ok .streamEnd⟩
    else
      let data := (input.rest.takeWhile (· != 0)).take output.room
      let after := input.advance data.length
      if after.rest.head? = some 0 then
        ⟨(s.1 + data.length, true), after.advance 1, output.fill data, .ok .streamEnd⟩
      else ⟨(s.1 + data.length, false), after, output.fill data, .ok .progress⟩
  totalOut s := s.1

/-- A decoder that copies, for one member or for several. -/
def Decoder.copying (multiple : Bool) : Decoder copier :=
  { idle copier () with multipleMembers := multiple }

/-- The codec, with so many sessions to give out: after that it refuses to start one. -/
def Codec.rationed {S M : Type} (c : Codec S M) : Codec S (M × Nat) where
  name := c.name
  start m :=
    match m.2 with
    | 0 => (.error ⟨.other, "no more sessions"⟩, m)
    | left + 1 => ((c.start m.1).1, ((c.start m.1).2, left))
  stop s m := (c.stop s m.1, m.2)
  step := c.step
  totalOut := c.totalOut

/-- The bytes before the first zero. -/
def upToZero (x : List UInt8) : List UInt8 :=
  x.takeWhile (· != 0)

theorem not_mem_upToZero (x : List UInt8) : 0 ∉ upToZero x := by
  intro h
  have hall := List.all_takeWhile (p := fun a : UInt8 => a != 0) (l := x)
  rw [List.all_eq_true] at hall
  exact absurd (hall 0 h) (by decide)

theorem upToZero_append {u x : List UInt8} (h : 0 ∉ u) : upToZero (u ++ x) = u ++ upToZero x := by
  refine List.takeWhile_append_of_pos fun a ha => ?_
  rw [bne_iff_ne]
  rintro rfl
  exact h ha

theorem upToZero_of_not_mem {u : List UInt8} (h : 0 ∉ u) : upToZero u = u := by
  have happend := upToZero_append (x := []) h
  rwa [List.append_nil, show upToZero [] = [] from rfl, List.append_nil] at happend

theorem upToZero_append_zero {u x : List UInt8} (h : 0 ∉ u) : upToZero (u ++ 0 :: x) = u := by
  have hzero : upToZero (0 :: x) = [] := List.takeWhile_cons_of_neg (by decide)
  rw [upToZero_append h, hzero, List.append_nil]

/-- What `copier` makes of bytes: a stream is over with its first zero. -/
def copying : Transduction where
  output := upToZero
  stop x := if x = upToZero x ++ [0] then some .ended else none
  output_mono := by
    rintro u v ⟨t, rfl⟩
    by_cases hzero : 0 ∈ u
    · rcases List.eq_append_cons_of_mem hzero with ⟨a, b, rfl, ha⟩
      have hsame : upToZero (a ++ 0 :: b ++ t) = upToZero (a ++ 0 :: b) := by
        rw [List.append_assoc, List.cons_append, upToZero_append_zero ha, upToZero_append_zero ha]
      exact hsame ▸ List.prefix_refl _
    · rw [upToZero_append hzero, upToZero_of_not_mem hzero]
      exact List.prefix_append u _
  stop_unique := by
    rintro u v p q ⟨t, rfl⟩ hu hv
    by_cases hstop : u = upToZero u ++ [0]
    · by_cases hstop' : u ++ t = upToZero (u ++ t) ++ [0]
      · have hzero : 0 ∉ upToZero u := not_mem_upToZero u
        have hsame : upToZero (u ++ t) = upToZero u := by
          conv => lhs; rw [hstop, List.append_assoc]
          exact upToZero_append_zero hzero
        rw [hsame, ← hstop] at hstop'
        exact hstop'.symm
      · rw [if_neg hstop'] at hv
        cases hv
    · rw [if_neg hstop] at hu
      cases hu

theorem copying_stop {u : List UInt8} (h : 0 ∉ u) : copying.stop (u ++ [0]) = some .ended := by
  simp only [copying, upToZero_append_zero h, if_true]

theorem copying_running {u : List UInt8} (h : 0 ∉ u) : copying.Running u := by
  rintro p ⟨t, rfl⟩
  have hp : ¬ p = upToZero p ++ [0] := by
    intro hc
    refine h (List.mem_append_left t ?_)
    rw [hc]
    exact List.mem_append_right _ (List.mem_singleton_self 0)
  simp only [copying, if_neg hp]

theorem rest_advance (input : Cursor) (n : Nat) : (input.advance n).rest = input.rest.drop n := by
  rw [Cursor.rest, Cursor.rest, Cursor.advance, List.drop_drop]

theorem between_advance (input : Cursor) (n : Nat) :
    input.between (input.advance n) = input.rest.take n := by
  rw [Cursor.between, Cursor.advance, Nat.add_sub_cancel_left]

theorem advance_inBounds {input : Cursor} {n : Nat} (hbounds : input.InBounds)
    (h : n ≤ input.rest.length) : (input.advance n).InBounds := by
  rw [Cursor.length_rest] at h
  unfold Cursor.room at h
  unfold Cursor.InBounds at hbounds ⊢
  unfold Cursor.advance
  dsimp only
  omega

theorem fill_ofBytes {buffer data : List UInt8} (h : data.length ≤ buffer.length) :
    ((Cursor.ofBytes buffer).fill data).InBounds ∧
      ((Cursor.ofBytes buffer).fill data).front = data := by
  have hin : (Cursor.ofBytes buffer).InBounds := Nat.zero_le _
  exact ⟨Cursor.fill_inBounds hin h, Cursor.front_fill hin h⟩

theorem copier_output (total : Nat) (input : Cursor) (buffer : List UInt8) :
    (copier.step (total, false) input (.ofBytes buffer)).output =
      (Cursor.ofBytes buffer).fill ((upToZero input.rest).take buffer.length) := by
  simp only [copier, Bool.false_eq_true, if_false]
  by_cases hend : (input.advance ((input.rest.takeWhile (· != 0)).take
      (Cursor.ofBytes buffer).room).length).rest.head? = some 0
  · rw [if_pos hend]
    rfl
  · rw [if_neg hend]
    rfl

/-- What a step of a session that goes on does: it copies, up to a zero or as far as there
    is something to copy and room for it. -/
theorem copied {total : Nat} {input : Cursor} {buffer : List UInt8} {stepped : Stepped (Nat × Bool)}
    (hstep : copier.step (total, false) input (.ofBytes buffer) = stepped) :
    ∃ data, 0 ∉ data ∧ stepped.output.InBounds ∧ stepped.output.front = data ∧
      stepped.session.1 = total + data.length ∧
      ((stepped.outcome = .ok .streamEnd ∧ stepped.session.2 = true ∧
          input.rest = data ++ 0 :: stepped.input.rest ∧
          stepped.input = input.advance (data.length + 1)) ∨
        (stepped.outcome = .ok .progress ∧ stepped.session.2 = false ∧
          input.rest = data ++ stepped.input.rest ∧ stepped.input = input.advance data.length ∧
          (data.length < buffer.length → stepped.input.rest = []))) := by
  generalize hdata : (input.rest.takeWhile (· != 0)).take buffer.length = data
  have hbegins : data <+: upToZero input.rest := by
    rw [← hdata]
    exact List.take_prefix _ _
  have hzero : 0 ∉ data := fun h => not_mem_upToZero _ (hbegins.subset h)
  have hfits : data.length ≤ buffer.length := by
    rw [← hdata, List.length_take]
    exact Nat.min_le_left _ _
  have hrest : input.rest = data ++ (input.advance data.length).rest := by
    rcases hbegins.trans (List.takeWhile_prefix _) with ⟨t, ht⟩
    rw [rest_advance, ← ht, List.drop_left]
  have hfill := fill_ofBytes hfits
  have hdata' : (input.rest.takeWhile (· != 0)).take (Cursor.ofBytes buffer).room = data := hdata
  refine ⟨data, hzero, ?_⟩
  by_cases hend : (input.advance data.length).rest.head? = some 0
  · simp only [copier, Bool.false_eq_true, if_false, hdata', if_pos hend] at hstep
    subst hstep
    refine ⟨hfill.1, hfill.2, rfl, Or.inl ⟨rfl, rfl, ?_, rfl⟩⟩
    rcases List.head?_eq_some_iff.mp hend with ⟨t, ht⟩
    have hnext : ((input.advance data.length).advance 1).rest = t := by
      rw [rest_advance, ht, List.drop_one, List.tail_cons]
    rw [hnext, ← ht]
    exact hrest
  · simp only [copier, Bool.false_eq_true, if_false, hdata', if_neg hend] at hstep
    subst hstep
    refine ⟨hfill.1, hfill.2, rfl, Or.inr ⟨rfl, rfl, hrest, rfl, fun hshort => ?_⟩⟩
    -- With room for more, everything up to a zero was copied, and there is none.
    have hall : data = upToZero input.rest := by
      rw [← hdata, List.length_take] at hshort
      have hle : (input.rest.takeWhile (· != 0)).length ≤ buffer.length := by omega
      rw [← hdata, List.take_of_length_le hle]
      rfl
    cases hafter : (input.advance data.length).rest with
    | nil => rfl
    | cons b bs =>
        rw [hafter, List.head?_cons] at hend
        have hb : (b != 0) = true := by
          rw [bne_iff_ne]
          exact fun hc => hend (by rw [hc])
        rw [hafter] at hrest
        rw [hrest, upToZero_append hzero] at hall
        have hcons : upToZero (b :: bs) = b :: upToZero bs := List.takeWhile_cons_of_pos hb
        rw [hcons] at hall
        have hlength := congrArg List.length hall
        rw [List.length_append, List.length_cons] at hlength
        omega

/-- What a session has read and written: it has written what it has read, but for a zero. -/
theorem copier_decoded {s : Nat × Bool} {u v : List UInt8} {ended : Bool}
    (h : Decoded copier s u v ended) :
    s = (v.length, ended) ∧ 0 ∉ v ∧ u = if ended then v ++ [0] else v := by
  induction h with
  | fresh hstart =>
      cases hstart
      exact ⟨rfl, List.not_mem_nil, rfl⟩
  | @step s u v ended input buffer stepped status _ _ hroom hstep houtcome ih =>
      rcases ih with ⟨rfl, hv, hu⟩
      cases ended with
      | true =>
          have hrests : stepped = ⟨(v.length, true), input, .ofBytes buffer, .ok .streamEnd⟩ :=
            hstep.symm
          rw [hrests] at houtcome ⊢
          cases houtcome
          have hfront : (Cursor.ofBytes buffer).front = [] := List.take_zero
          rw [Cursor.between_self, hfront, List.append_nil, List.append_nil]
          exact ⟨rfl, hv, hu⟩
      | false =>
          rcases copied hstep with ⟨data, hdata, _, hfront, htotal, hcases⟩
          rw [hfront]
          refine ⟨?_, by simp only [List.mem_append, hv, hdata, or_false, not_false_eq_true], ?_⟩
          · rcases hcases with ⟨hok, hover, _, _⟩ | ⟨hok, hover, _, _, _⟩
            · rw [hok] at houtcome
              cases houtcome
              exact Prod.ext (by rw [htotal, List.length_append]) hover
            · rw [hok] at houtcome
              cases houtcome
              exact Prod.ext (by rw [htotal, List.length_append]) hover
          · rw [if_neg Bool.false_ne_true] at hu
            rcases hcases with ⟨hok, _, hrest, hinput⟩ | ⟨hok, _, hrest, hinput, _⟩
            · rw [hok] at houtcome
              cases houtcome
              rw [hinput, between_advance, hrest, List.take_length_add_append, hu,
                List.append_assoc]
              rfl
            · rw [hok] at houtcome
              cases houtcome
              rw [hinput, between_advance, hrest, List.take_left, hu]
              rfl

/-- The sessions of `copier` follow the transduction. -/
theorem copier_transduces : Transduces copier copying where
  start memory := ⟨_, _, rfl⟩
  fresh h := by cases h; rfl
  step := by
    intro s u v hdecoded input buffer hbounds hroom
    rcases copier_decoded hdecoded with ⟨rfl, hv, hu⟩
    rw [if_neg Bool.false_ne_true] at hu
    subst hu
    generalize hstep : copier.step (u.length, false) input (.ofBytes buffer) = stepped
    rcases copied hstep with ⟨data, hdata, hwritten, hfront, htotal, hcases⟩
    have hcopied : 0 ∉ u ++ data := by
      simp only [List.mem_append, hv, hdata, or_false, not_false_eq_true]
    rcases hcases with ⟨houtcome, _, hrest, hinput⟩ | ⟨houtcome, _, hrest, hinput, hnothing⟩
    · have hbetween : input.between stepped.input = data ++ [0] := by
        rw [hinput, between_advance, hrest, List.take_length_add_append]
        rfl
      constructor
      · rw [hinput]; rfl
      · rw [hinput]; exact Nat.le_add_right _ _
      · rw [hinput]
        refine advance_inBounds hbounds ?_
        rw [hrest, List.length_append, List.length_cons]
        omega
      · intro error hc; rw [houtcome] at hc; cases hc
      · exact fun _ _ => hwritten
      · intro _ _; rw [hfront]; exact htotal
      · intro _ _
        rw [hfront, hbetween, ← List.append_assoc]
        show u ++ data <+: upToZero (u ++ data ++ 0 :: [])
        exact (upToZero_append_zero hcopied).symm ▸ List.prefix_refl _
      · intro hc; rw [houtcome] at hc; cases hc
      · intro _
        rw [hfront, hbetween, ← List.append_assoc]
        exact ⟨copying_stop hcopied, (upToZero_append_zero hcopied).symm⟩
    · have hbetween : input.between stepped.input = data := by
        rw [hinput, between_advance, hrest, List.take_left]
      constructor
      · rw [hinput]; rfl
      · rw [hinput]; exact Nat.le_add_right _ _
      · rw [hinput]
        refine advance_inBounds hbounds ?_
        rw [hrest, List.length_append]
        omega
      · intro error hc; rw [houtcome] at hc; cases hc
      · exact fun _ _ => hwritten
      · intro _ _; rw [hfront]; exact htotal
      · intro _ _
        rw [hfront, hbetween]
        show u ++ data <+: upToZero (u ++ data)
        exact (upToZero_of_not_mem hcopied).symm ▸ List.prefix_refl _
      · intro _ hempty
        rw [hfront] at hempty
        rw [hbetween]
        have hshort : data.length < buffer.length := hempty ▸ List.length_pos_iff.mpr hroom
        refine ⟨hnothing hshort, ?_, copying_running hcopied⟩
        rw [hempty, List.append_nil]
        exact (upToZero_of_not_mem hv).symm
      · intro hc; rw [houtcome] at hc; cases hc

theorem copier_rests : RestsAtEnd copier := by
  intro s u v hdecoded input buffer _ _
  rcases copier_decoded hdecoded with ⟨rfl, _, _⟩
  exact ⟨rfl, rfl, Nat.zero_le _, List.take_zero, rfl⟩

/-- Nothing is made of a zero, so no string decodes to more than it is long. -/
theorem copying_yields {multiple : Bool} {x out : List UInt8} (h : Yields copying multiple x out) :
    out.length ≤ x.length := by
  have houtput : ∀ x, (copying.output x).length ≤ x.length := fun x =>
    (List.takeWhile_prefix _).length_le
  induction h with
  | last x => exact houtput x
  | @member e t out _ _ _ ih =>
      have he := houtput e
      rw [List.length_append, List.length_append]
      omega

end Decompression
