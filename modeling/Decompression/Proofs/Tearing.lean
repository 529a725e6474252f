import Decompression.Proofs.Writing

/-!
# Chunks Written, Refused and Torn

A sink that writes its chunks counts a chunk only once its writer has taken all of it. The
writer may fail before that, and then it has taken some of the chunk that the count does not
know of. So the count and the writer can disagree; what is said here is that this is the only
way in which they can, and that it shows: a push says so if it was not written as a whole.

Three things can become of a chunk, `Fate`: it is written, it is refused because it is out of
place, or it is torn. Whatever chunks are pushed one after another, and whatever becomes of
each, the writer has what was accepted, in order, with the beginnings of the chunks that were
torn in between, and the count is that of what was accepted. Counts and offsets are of 64 bits;
that they are added here without limit makes no difference before so much has been accepted.

## Main definitions

* `Delivery`, `deliveries`: What becomes of a chunk, and of several.
* `Delivery.taken`: What the writer took of it.
* `Fate`: The three things that can become of a chunk.
* `Fair`: What a push says is what has become of its chunk.
* `Tallied`: What a writer has after several pushes, and what is counted.
* `Scripted`: A writer that does what it is told.

## Theorems

* `fate_of_push`: Every push comes to one of the three.
* `tallied`: What several pushes add up to.
* `inRange_iff`: Up to when the count is one of 64 bits.
* `deliveries_tallied`: All of it, for every writer and every list of chunks.
-/

namespace Decompression

open Writer

variable {ω : Type} [Writer ω]

/-! ## One chunk -/

/-- A chunk that was pushed to a sink, and what became of it. -/
structure Delivery (ω : Type) where
  chunk : Chunk
  before : WriterSink ω
  answer : Except IoError Unit
  after : WriterSink ω

/-- The push of a chunk. -/
def WriterSink.deliver (sink : WriterSink ω) (chunk : Chunk) : Delivery ω :=
  ⟨chunk, sink, (Sink.push sink chunk).1, (Sink.push sink chunk).2⟩

/-- What the writer took. -/
def Delivery.taken (p : Delivery ω) : List UInt8 :=
  (content p.after.writer).drop (content p.before.writer).length

/-- The data of the chunk, if it was accepted. -/
def Delivery.accepted (p : Delivery ω) : List UInt8 :=
  match p.answer with
  | .ok _ => p.chunk.data
  | .error _ => []

/-- What can become of a chunk. -/
inductive Fate (p : Delivery ω) : Prop
  | written (place : p.chunk.offset = p.before.written) (answer : p.answer = .ok ())
      (counted : p.after.written = p.chunk.endOffset)
      (content : content p.after.writer = content p.before.writer ++ p.chunk.data)
  | misplaced (place : p.chunk.offset ≠ p.before.written)
      (answer : p.answer = .error (WriterSink.outOfPlace p.chunk.offset p.before.written))
      (untouched : p.after = p.before)
  | torn {cause : IoError} {taken left : List UInt8} (place : p.chunk.offset = p.before.written)
      (answer : p.answer = .error cause) (uncounted : p.after.written = p.before.written)
      (data : p.chunk.data = taken ++ left) (missing : left ≠ [])
      (content : content p.after.writer = content p.before.writer ++ taken)

/-- Every push comes to one of these. -/
theorem fate_of_push (sink : WriterSink ω) (chunk : Chunk) : Fate (sink.deliver chunk) := by
  by_cases hplace : chunk.offset = sink.written
  · rcases hwrite : writeAll sink.writer chunk.data with ⟨cause | _, writer⟩
    · have hpush : Sink.push sink chunk = (.error cause, { sink with writer := writer }) := by
        change WriterSink.push sink chunk = _
        rw [WriterSink.push, if_neg (fun hne => hne hplace), hwrite]
      rcases content_writeAll_error hwrite with ⟨taken, left, hdata, hleft, hcontent⟩
      refine .torn hplace (?_ : _ = Except.error cause) ?_ hdata hleft ?_
      · rw [WriterSink.deliver, hpush]
      · rw [WriterSink.deliver, hpush]
      · rw [WriterSink.deliver, hpush]
        exact hcontent
    · have hpush : Sink.push sink chunk = (.ok (), ⟨writer, chunk.endOffset⟩) := by
        change WriterSink.push sink chunk = _
        rw [WriterSink.push, if_neg (fun hne => hne hplace), hwrite]
      refine .written hplace ?_ ?_ ?_
      · rw [WriterSink.deliver, hpush]
      · rw [WriterSink.deliver, hpush]
      · rw [WriterSink.deliver, hpush]
        exact content_writeAll_ok hwrite
  · have hpush := WriterSink.push_outOfPlace hplace
    refine .misplaced hplace ?_ ?_
    · rw [WriterSink.deliver, hpush]
    · rw [WriterSink.deliver, hpush]

section Delivery

variable {p : Delivery ω}

-- What came after what the writer had is what it took.
theorem Delivery.taken_eq {data : List UInt8}
    (h : content p.after.writer = content p.before.writer ++ data) : p.taken = data := by
  rw [taken, h, List.drop_left]

/-- What a push says is what has become of its chunk. -/
structure Fair (p : Delivery ω) : Prop where
  -- The writer keeps what it has
  appends : content p.after.writer = content p.before.writer ++ p.taken
  -- The chunk was in its place and all of it was written
  accepted : p.answer = .ok () ↔ p.chunk.offset = p.before.written ∧ p.taken = p.chunk.data
  counted : p.answer = .ok () → p.after.written = p.chunk.endOffset
  uncounted : p.answer ≠ .ok () → p.after.written = p.before.written
  -- The chunk was out of place
  misplaced : p.chunk.offset ≠ p.before.written → p.after = p.before ∧ p.taken = [] ∧
    p.answer = .error (WriterSink.outOfPlace p.chunk.offset p.before.written)
  -- The writer failed
  torn : p.chunk.offset = p.before.written → p.answer ≠ .ok () →
    ∃ left, p.chunk.data = p.taken ++ left ∧ left ≠ []

theorem Fate.fair (h : Fate p) : Fair p := by
  cases h with
  | written hplace hanswer hcounted hcontent =>
      have htaken := Delivery.taken_eq hcontent
      refine ⟨?_, ⟨fun _ => ⟨hplace, htaken⟩, fun _ => hanswer⟩, fun _ => hcounted, ?_, ?_, ?_⟩
      · rw [htaken]
        exact hcontent
      · exact fun hne => absurd hanswer hne
      · exact fun hne => absurd hplace hne
      · exact fun _ hne => absurd hanswer hne
  | misplaced hplace hanswer huntouched =>
      have hcontent : content p.after.writer = content p.before.writer ++ [] := by
        rw [huntouched, List.append_nil]
      have htaken := Delivery.taken_eq hcontent
      refine ⟨?_, ⟨fun hok => ?_, fun hwhole => absurd hwhole.1 hplace⟩, fun hok => ?_, ?_, ?_, ?_⟩
      · rw [htaken]
        exact hcontent
      · cases hanswer.symm.trans hok
      · cases hanswer.symm.trans hok
      · exact fun _ => by rw [huntouched]
      · exact fun _ => ⟨huntouched, htaken, hanswer⟩
      · exact fun heq => absurd heq hplace
  | @torn cause taken left hplace hanswer huncounted hdata hleft hcontent =>
      have htaken := Delivery.taken_eq hcontent
      refine ⟨?_, ⟨fun hok => ?_, fun hwhole => ?_⟩, fun hok => ?_, fun _ => huncounted, ?_, ?_⟩
      · rw [htaken]
        exact hcontent
      · cases hanswer.symm.trans hok
      · -- Something is missing.
        have hsame := hwhole.2
        rw [htaken, hdata] at hsame
        exact absurd (List.self_eq_append_right.mp hsame) hleft
      · cases hanswer.symm.trans hok
      · exact fun hne => absurd hplace hne
      · exact fun _ _ => ⟨left, by rw [htaken, hdata], hleft⟩

omit [Writer ω] in
theorem Delivery.accepted_of_ok (h : p.answer = .ok ()) : p.accepted = p.chunk.data := by
  rw [accepted, h]

omit [Writer ω] in
theorem Delivery.accepted_of_error {cause : IoError} (h : p.answer = .error cause) :
    p.accepted = [] := by
  rw [accepted, h]

/-- The count goes on by what was accepted. -/
theorem Fate.counted (h : Fate p) : p.after.written = p.before.written + p.accepted.length := by
  cases h with
  | written hplace hanswer hcounted _ =>
      rw [hcounted, Delivery.accepted_of_ok hanswer, Chunk.endOffset, hplace, Chunk.length]
  | misplaced _ hanswer huntouched =>
      rw [huntouched, Delivery.accepted_of_error hanswer]
      rfl
  | torn _ hanswer huncounted _ _ _ =>
      rw [huncounted, Delivery.accepted_of_error hanswer]
      rfl

/-- What was accepted was taken. -/
theorem Fate.covered (h : Fate p) : p.accepted <+: p.taken := by
  cases h with
  | written _ hanswer _ hcontent =>
      have hsame : p.accepted = p.taken := by
        rw [Delivery.accepted_of_ok hanswer, Delivery.taken_eq hcontent]
      exact ⟨[], (List.append_nil _).trans hsame⟩
  | misplaced _ hanswer _ =>
      rw [Delivery.accepted_of_error hanswer]
      exact List.nil_prefix
  | torn _ hanswer _ _ _ _ =>
      rw [Delivery.accepted_of_error hanswer]
      exact List.nil_prefix

/-- And nothing else was taken, unless the chunk was torn. -/
theorem Fate.whole (h : Fate p) (hnot : p.answer ≠ .ok () → p.chunk.offset ≠ p.before.written) :
    p.taken = p.accepted := by
  cases h with
  | written _ hanswer _ hcontent =>
      rw [Delivery.accepted_of_ok hanswer, Delivery.taken_eq hcontent]
  | misplaced _ hanswer huntouched =>
      rw [Delivery.accepted_of_error hanswer, Delivery.taken, huntouched, List.drop_length]
  | torn hplace hanswer _ _ _ _ =>
      refine absurd hplace (hnot fun hok => ?_)
      cases hanswer.symm.trans hok

end Delivery

/-! ## Several chunks -/

/-- The pushes of several chunks, one after another. -/
def WriterSink.deliveries : WriterSink ω → List Chunk → List (Delivery ω)
  | _, [] => []
  | sink, chunk :: rest => sink.deliver chunk :: (sink.deliver chunk).after.deliveries rest

/-- The sink after that. -/
def WriterSink.afterAll : WriterSink ω → List Chunk → WriterSink ω
  | sink, [] => sink
  | sink, chunk :: rest => (sink.deliver chunk).after.afterAll rest

/-- What a sink has after some pushes, and what it has counted. -/
structure Tallied (sink : WriterSink ω) (ps : List (Delivery ω)) (after : WriterSink ω) :
    Prop where
  -- The writer has what it took of each chunk, in order
  content : content after.writer = content sink.writer ++ ps.flatMap Delivery.taken
  -- What was accepted is counted
  counted : after.written = sink.written + (ps.flatMap Delivery.accepted).length
  -- There is no more of it than the writer took
  covered : (ps.flatMap Delivery.accepted).length ≤ (ps.flatMap Delivery.taken).length
  -- And no less, if every chunk that was refused was out of place
  whole : (∀ p ∈ ps, p.answer ≠ .ok () → p.chunk.offset ≠ p.before.written) →
    ps.flatMap Delivery.taken = ps.flatMap Delivery.accepted

/-- What several pushes add up to. -/
theorem tallied (sink : WriterSink ω) (chunks : List Chunk) :
    Tallied sink (sink.deliveries chunks) (sink.afterAll chunks) := by
  induction chunks generalizing sink with
  | nil => exact ⟨(List.append_nil _).symm, rfl, Nat.le_refl 0, fun _ => rfl⟩
  | cons chunk rest ih =>
      have hfate := fate_of_push sink chunk
      have hrest := ih (sink.deliver chunk).after
      constructor
      · rw [WriterSink.afterAll, hrest.content, hfate.fair.appends, WriterSink.deliveries,
          List.flatMap_cons, List.append_assoc]
        rfl
      · rw [WriterSink.afterAll, hrest.counted, hfate.counted, WriterSink.deliveries,
          List.flatMap_cons, List.length_append, Nat.add_assoc]
        rfl
      · rw [WriterSink.deliveries, List.flatMap_cons, List.flatMap_cons, List.length_append,
          List.length_append]
        exact Nat.add_le_add hfate.covered.length_le hrest.covered
      · intro hnot
        rcases List.forall_mem_cons.mp hnot with ⟨hfirst, hlater⟩
        rw [WriterSink.deliveries, List.flatMap_cons, List.flatMap_cons, hfate.whole hfirst,
          hrest.whole hlater]

/-- Every push comes to one of the three, also after others. -/
theorem fate_of_deliveries {sink : WriterSink ω} {chunks : List Chunk} {p : Delivery ω}
    (h : p ∈ sink.deliveries chunks) : Fate p := by
  induction chunks generalizing sink with
  | nil => cases h
  | cons chunk rest ih =>
      rw [WriterSink.deliveries] at h
      rcases List.mem_cons.mp h with rfl | hlater
      · exact fate_of_push sink chunk
      · exact ih hlater

/-! ## The range of the count -/

-- An addition that is in range is exact.
theorem addOffset_eq_ok_iff {offset amount total : Nat} :
    addOffset offset amount = .ok total ↔ offset + amount = total ∧ total < offsetLimit := by
  unfold addOffset
  split
  next h =>
    rw [Except.ok.injEq]
    omega
  next h =>
    constructor
    · intro hc
      cases hc
    · intro hc
      omega

/-- The end of an accepted chunk is in range exactly if the count is afterwards. -/
theorem Fair.inRange_iff {p : Delivery ω} (h : Fair p) (hok : p.answer = .ok ()) :
    addOffset p.chunk.offset p.chunk.length = .ok p.after.written ↔
      p.after.written < offsetLimit := by
  have hend := h.counted hok
  unfold Chunk.endOffset at hend
  rw [addOffset_eq_ok_iff]
  omega

-- The count never goes down, and it changes only if a chunk is accepted.
theorem inRange_iff {sink : WriterSink ω} (hsink : sink.written < offsetLimit)
    (chunks : List Chunk) :
    (sink.afterAll chunks).written < offsetLimit ↔ ∀ p ∈ sink.deliveries chunks,
      p.answer = .ok () → addOffset p.chunk.offset p.chunk.length = .ok p.after.written := by
  induction chunks generalizing sink with
  | nil => exact ⟨fun _ _ hp => (nomatch hp), fun _ => hsink⟩
  | cons chunk rest ih =>
      have hfair := (fate_of_push sink chunk).fair
      have hrest := (tallied (sink.deliver chunk).after rest).counted
      rw [WriterSink.afterAll, WriterSink.deliveries, List.forall_mem_cons]
      by_cases hafter : (sink.deliver chunk).after.written < offsetLimit
      · rw [ih hafter]
        exact ⟨fun h => ⟨fun hok => (hfair.inRange_iff hok).mpr hafter, h⟩, fun h => h.2⟩
      · refine ⟨fun h => by omega, fun h => absurd ?_ hafter⟩
        by_cases hok : (sink.deliver chunk).answer = .ok ()
        · exact (hfair.inRange_iff hok).mp (h.1 hok)
        · rw [hfair.uncounted hok]
          exact hsink

/-- A sink that writes its chunks neither tears one nor changes their order without saying so. Of
    whatever chunks are pushed to a new one, each push says what has become of its chunk; the
    writer has what was accepted, in order, and of other chunks at most their beginnings; what is
    counted is what was accepted, and the writer has taken no less; it has taken nothing else if it
    has not failed; and the count is within the range of offsets as long as no chunk was accepted
    whose end is not. -/
theorem deliveries_tallied (writer : ω) (chunks : List Chunk) :
    let ps := (WriterSink.ofWriter writer).deliveries chunks
    let after := (WriterSink.ofWriter writer).afterAll chunks
    (∀ p ∈ ps, Fair p) ∧
      content after.writer = content writer ++ ps.flatMap Delivery.taken ∧
      after.written = (ps.flatMap Delivery.accepted).length ∧
      (content writer).length + after.written ≤ (content after.writer).length ∧
      ((∀ p ∈ ps, p.answer ≠ .ok () → p.chunk.offset ≠ p.before.written) →
        content after.writer = content writer ++ ps.flatMap Delivery.accepted) ∧
      (after.written < offsetLimit ↔ ∀ p ∈ ps, p.answer = .ok () →
        addOffset p.chunk.offset p.chunk.length = .ok p.after.written) := by
  have htallied := tallied (WriterSink.ofWriter writer) chunks
  have hwritten := htallied.counted
  rw [WriterSink.ofWriter, Nat.zero_add] at hwritten
  have hfirst : (WriterSink.ofWriter writer).written < offsetLimit := by
    change 0 < offsetLimit
    decide
  refine ⟨fun p hp => (fate_of_deliveries hp).fair, htallied.content, hwritten, ?_,
    fun hnot => ?_, inRange_iff hfirst chunks⟩
  · rw [htallied.content, List.length_append]
    refine Nat.add_le_add_left ?_ _
    exact hwritten.le.trans htallied.covered
  · rw [htallied.content, htallied.whole hnot]
    rfl

/-- A writer that does what it is told, and takes everything once it has been told nothing more. -/
structure Scripted where
  taken : List UInt8
  script : List Attempt

def Scripted.write (w : Scripted) (data : List UInt8) : Attempt × Scripted :=
  match w.script with
  | [] => (.took data.length, ⟨w.taken ++ data, []⟩)
  | .took count :: rest => (.took (min count data.length), ⟨w.taken ++ data.take count, rest⟩)
  | .interrupted :: rest => (.interrupted, ⟨w.taken, rest⟩)
  | .failed cause :: rest => (.failed cause, ⟨w.taken, rest⟩)

instance : Writer Scripted where
  write := Scripted.write
  content := Scripted.taken
  patience w := w.script.length
  took_le := by
    rintro ⟨taken, _ | ⟨_ | _ | _, rest⟩⟩ w' data count h <;> cases h
    · exact Nat.le_refl _
    · exact Nat.min_le_right _ _
  content_took := by
    rintro ⟨taken, _ | ⟨_ | _ | _, rest⟩⟩ w' data count h <;> cases h
    · rw [List.take_length]
    · exact congrArg _ (List.take_eq_take_iff.mpr (by rw [Nat.min_assoc, Nat.min_self]))
  content_interrupted := by
    rintro ⟨taken, _ | ⟨_ | _ | _, rest⟩⟩ w' data h <;> cases h
    rfl
  patience_interrupted := by
    rintro ⟨taken, _ | ⟨_ | _ | _, rest⟩⟩ w' data h <;> cases h
    exact Nat.lt_succ_self _
  content_failed := by
    rintro ⟨taken, _ | ⟨_ | _ | _, rest⟩⟩ w' data cause h <;> cases h
    rfl

/-- A writer that takes a chunk in two pieces, and fails within a later one. -/
def Scripted.failing : Scripted :=
  ⟨[], [.took 2, .interrupted, .took 1, .took 1, .failed ⟨.other, "full"⟩]⟩

/-- The torn chunk is written once more, and the writer has its beginning twice; without it, what
    was refused is out of place, and the writer has what was accepted. -/
theorem deliveries_tallied_scripted :
    (WriterSink.ofWriter Scripted.failing).afterAll
      [⟨0, [1, 2, 3]⟩, ⟨0, [1]⟩, ⟨3, [4, 5]⟩, ⟨3, [4, 5]⟩, ⟨5, []⟩] =
        ⟨⟨[1, 2, 3, 4, 4, 5], []⟩, 5⟩ ∧
    (∀ p ∈ (WriterSink.ofWriter Scripted.failing).deliveries
      [⟨0, [1, 2, 3]⟩, ⟨0, [1]⟩, ⟨3, [4, 5]⟩, ⟨3, [4, 5]⟩, ⟨5, []⟩], Fair p) ∧
    content ((WriterSink.ofWriter Scripted.failing).afterAll
        [⟨0, [1, 2, 3]⟩, ⟨0, [1]⟩]).writer =
      ((WriterSink.ofWriter Scripted.failing).deliveries
        [⟨0, [1, 2, 3]⟩, ⟨0, [1]⟩]).flatMap Delivery.accepted := by
  refine ⟨by cbv, (deliveries_tallied Scripted.failing _).1, ?_⟩
  refine (deliveries_tallied Scripted.failing _).2.2.2.2.1 ?_
  have hps : (WriterSink.ofWriter Scripted.failing).deliveries [⟨0, [1, 2, 3]⟩, ⟨0, [1]⟩] =
      [⟨⟨0, [1, 2, 3]⟩, ⟨Scripted.failing, 0⟩, .ok (),
          ⟨⟨[1, 2, 3], [.took 1, .failed ⟨.other, "full"⟩]⟩, 3⟩⟩,
        ⟨⟨0, [1]⟩, ⟨⟨[1, 2, 3], [.took 1, .failed ⟨.other, "full"⟩]⟩, 3⟩,
          .error (WriterSink.outOfPlace 0 3),
          ⟨⟨[1, 2, 3], [.took 1, .failed ⟨.other, "full"⟩]⟩, 3⟩⟩] := by
    cbv
  rw [hps]
  refine List.forall_mem_cons.mpr ⟨fun hne => absurd rfl hne, ?_⟩
  exact List.forall_mem_singleton.mpr fun _ => by decide

end Decompression
