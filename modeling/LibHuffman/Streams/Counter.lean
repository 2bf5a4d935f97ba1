/-
# What the buffered writer counts

`have_been_processed` grows by the length of every write, whether its bytes are copied or
written directly. `huf_bufio_read_writer_flush` adds nothing to it, for it clears the length
first. The flush of a full buffer at the beginning of a write counts the whole buffer once
more. How full the buffer is before a call is a matter of the capacity and of the calls
before, so it is known which runs are counted right.
-/

import LibHuffman.Streams.Writer

namespace LibHuffman

open Foundation

variable {ω : Type}

/-! ## The calls alone -/

/-- How full the buffer is after a call that succeeds. -/
def WriterCall.fill (capacity fill : ℕ) : WriterCall → ℕ
  | .write buf =>
    let kept := if fill = capacity then 0 else fill
    if capacity ≠ 0 ∧ buf.length ≤ capacity - kept then kept + buf.length
    else if buf.length > 0 then 0
    else kept
  | .flush => 0

/-- The bytes of a full buffer, which a write counts once more. -/
def WriterCall.recounted (capacity fill : ℕ) : WriterCall → ℕ
  | .write _ => if fill = capacity then capacity else 0
  | .flush => 0

/-- How full the buffer is after calls that succeed. -/
def fillAfter (capacity : ℕ) (fill : ℕ) (calls : List WriterCall) : ℕ :=
  calls.foldl (fun fill call => call.fill capacity fill) fill

/-- The bytes that calls count once more. -/
def recountedBytes (capacity : ℕ) : ℕ → List WriterCall → ℕ
  | _, [] => 0
  | fill, call :: calls =>
    call.recounted capacity fill + recountedBytes capacity (call.fill capacity fill) calls

/-- The number of bytes that calls hand over. -/
def bytesPassed : List WriterCall → ℕ
  | [] => 0
  | call :: calls => call.argument.length + bytesPassed calls

/-- No write begins with a buffer that is filled to its capacity, unless there is no
buffer. -/
def NeverFull (capacity fill : ℕ) (calls : List WriterCall) : Prop :=
  ∀ earlier buf later, calls = earlier ++ .write buf :: later →
    capacity = 0 ∨ fillAfter capacity fill earlier ≠ capacity

theorem fill_le_capacity {capacity fill : ℕ} (h : fill ≤ capacity) (call : WriterCall) :
    call.fill capacity fill ≤ capacity := by
  cases call with
  | flush => exact Nat.zero_le _
  | write buf =>
      simp only [WriterCall.fill]
      split
      case isTrue hfull =>
        split
        · omega
        · split <;> omega
      case isFalse hfull =>
        split
        · omega
        · split <;> omega

/-- Nothing is counted once more exactly if no write finds the buffer full. -/
theorem recountedBytes_eq_zero_iff (capacity : ℕ) (calls : List WriterCall) (fill : ℕ) :
    recountedBytes capacity fill calls = 0 ↔ NeverFull capacity fill calls := by
  induction calls generalizing fill with
  | nil =>
      refine ⟨fun _ earlier buf later h => ?_, fun _ => rfl⟩
      exact absurd h.symm (List.append_ne_nil_of_right_ne_nil _ (List.cons_ne_nil _ _))
  | cons call calls ih =>
      rw [recountedBytes, Nat.add_eq_zero_iff, ih]
      apply Iff.intro
      · rintro ⟨hcall, hcalls⟩ earlier buf later h
        cases earlier with
        | nil =>
            cases h
            by_cases hfull : fill = capacity
            · rw [WriterCall.recounted, if_pos hfull] at hcall
              exact Or.inl hcall
            · exact Or.inr hfull
        | cons first earlier =>
            cases h
            exact hcalls earlier buf later rfl
      · intro h
        apply And.intro
        · cases call with
          | flush => rfl
          | write buf =>
              rw [WriterCall.recounted]
              split
              · exact (h [] buf calls rfl).resolve_right (not_not.mpr ‹_›)
              · rfl
        · intro earlier buf later hcalls
          exact h (call :: earlier) buf later (by rw [hcalls]; rfl)

/-! ## The counter -/

/-- A buffered writer that is filled so far and has counted so much. -/
structure Counts (capacity fill processed : ℕ) (b : Buffered ω) : Prop where
  capacity_eq : b.bufio.capacity = capacity
  length_eq : b.bufio.length = fill
  fill_le : fill ≤ capacity
  processed_eq : b.bufio.haveBeenProcessed = processed

section

variable {capacity fill processed : ℕ} {b b' : Buffered ω}

theorem writeUnderlying_bufio {data : List UInt8} {r : Except HufError Unit}
    (h : writeUnderlying data b = .ok (r, b')) : b'.bufio = b.bufio := by
  rw [writeUnderlying, Routine.get_bind_apply] at h
  rcases Routine.within_eq_ok h with ⟨_, _, _, _, rfl⟩
  rfl

/-- An explicit flush empties the buffer and counts nothing. -/
theorem Counts.flush (h : Counts capacity fill processed b)
    (hrun : hufBufioReadWriterFlush b = .ok (.ok (), b')) : Counts capacity 0 processed b' := by
  rw [hufBufioReadWriterFlush, Routine.get_bind_apply] at hrun
  by_cases hlen : b.bufio.length ≠ 0
  · rw [if_pos hlen] at hrun
    rcases Routine.demand_bind_eq_ok hrun with ⟨data, -, hrun⟩
    rcases Routine.bind_eq_ok hrun with ⟨_, b₂, hwrite, hrun⟩
    have hbufio := writeUnderlying_bufio hwrite
    cases hrun
    refine ⟨?_, rfl, Nat.zero_le _, ?_⟩
    · exact (congrArg HufBufioReadWriter.capacity hbufio).trans h.capacity_eq
    · exact (congrArg HufBufioReadWriter.haveBeenProcessed hbufio).trans h.processed_eq
  · rw [if_neg hlen] at hrun
    cases hrun
    exact ⟨h.capacity_eq, Decidable.not_not.mp hlen, Nat.zero_le _, h.processed_eq⟩

/-- The flush of a full buffer counts the buffer. -/
theorem Counts.flushFull (h : Counts capacity fill processed b)
    (hrun : hufBufioReadWriterFlushFull b = .ok (.ok (), b')) :
    Counts capacity (if fill = capacity then 0 else fill)
      (processed + if fill = capacity then capacity else 0) b' := by
  have hle := h.fill_le
  rw [hufBufioReadWriterFlushFull, Routine.get_bind_apply, h.capacity_eq, h.length_eq] at hrun
  by_cases hflush : fill ≥ capacity ∧ fill ≠ 0
  · have hfull : fill = capacity := Nat.le_antisymm hle hflush.1
    rw [if_pos hflush] at hrun
    rcases Routine.demand_bind_eq_ok hrun with ⟨data, -, hrun⟩
    rcases Routine.bind_eq_ok hrun with ⟨_, b₂, hwrite, hrun⟩
    have hbufio := writeUnderlying_bufio hwrite
    cases hrun
    rw [if_pos hfull, if_pos hfull]
    refine ⟨?_, rfl, Nat.zero_le _, ?_⟩
    · exact (congrArg HufBufioReadWriter.capacity hbufio).trans h.capacity_eq
    · show b₂.bufio.haveBeenProcessed + b₂.bufio.length = processed + capacity
      rw [hbufio, h.processed_eq, h.length_eq, hfull]
  · rw [if_neg hflush] at hrun
    cases hrun
    by_cases hfull : fill = capacity
    · -- a buffer that is full and empty is no buffer
      have hzero : capacity = 0 := by omega
      rw [if_pos hfull, if_pos hfull]
      refine ⟨h.capacity_eq, ?_, Nat.zero_le _, ?_⟩
      · rw [h.length_eq, hfull, hzero]
      · rw [h.processed_eq, hzero, Nat.add_zero]
    · rw [if_neg hfull, if_neg hfull]
      exact h

/-- A write counts its argument, and a full buffer once more. -/
theorem Counts.write (h : Counts capacity fill processed b) {buf : List UInt8}
    (hrun : hufBufioWrite buf b = .ok (.ok (), b')) :
    Counts capacity (WriterCall.fill capacity fill (.write buf))
      (processed + buf.length + WriterCall.recounted capacity fill (.write buf)) b' := by
  have hnext := fill_le_capacity h.fill_le (.write buf)
  rw [hufBufioWrite] at hrun
  rcases Routine.bind_eq_ok hrun with ⟨_, b₁, hflush, hrun⟩
  have h₁ := h.flushFull hflush
  rw [WriterCall.fill] at hnext ⊢
  rw [WriterCall.recounted]
  generalize (if fill = capacity then 0 else fill) = kept at h₁ hnext ⊢
  generalize (if fill = capacity then capacity else 0) = recounted at h₁ ⊢
  rw [Routine.get_bind_apply, h₁.capacity_eq, h₁.length_eq, sizeSub_of_le h₁.fill_le] at hrun
  by_cases hfit : capacity ≠ 0 ∧ buf.length ≤ capacity - kept
  · rw [if_pos hfit] at hrun hnext ⊢
    rcases Routine.demand_bind_eq_ok hrun with ⟨bytes, -, hrun⟩
    cases hrun
    refine ⟨h₁.capacity_eq, ?_, hnext, ?_⟩
    · show b₁.bufio.length + buf.length = kept + buf.length
      rw [h₁.length_eq]
    · show b₁.bufio.haveBeenProcessed + buf.length = processed + buf.length + recounted
      rw [h₁.processed_eq]
      omega
  rw [if_neg hfit] at hrun hnext ⊢
  by_cases hlen : buf.length > 0
  · rw [if_pos hlen] at hrun hnext ⊢
    rcases Routine.bind_eq_ok hrun with ⟨_, b₂, hflush', hrun⟩
    have h₂ := h₁.flush hflush'
    rcases Routine.bind_eq_ok hrun with ⟨_, b₃, hwrite, hrun⟩
    have hbufio := writeUnderlying_bufio hwrite
    cases hrun
    refine ⟨?_, ?_, hnext, ?_⟩
    · exact (congrArg HufBufioReadWriter.capacity hbufio).trans h₂.capacity_eq
    · exact (congrArg HufBufioReadWriter.length hbufio).trans h₂.length_eq
    · show b₃.bufio.haveBeenProcessed + buf.length = processed + buf.length + recounted
      rw [hbufio, h₂.processed_eq]
      omega
  · rw [if_neg hlen] at hrun hnext ⊢
    cases hrun
    refine ⟨h₁.capacity_eq, h₁.length_eq, hnext, ?_⟩
    rw [h₁.processed_eq]
    omega

/-- One call. -/
theorem Counts.call (h : Counts capacity fill processed b) {call : WriterCall}
    (hrun : call.run b = .ok (.ok (), b')) :
    Counts capacity (call.fill capacity fill)
      (processed + call.argument.length + call.recounted capacity fill) b' := by
  cases call with
  | write buf => exact h.write hrun
  | flush => exact h.flush hrun

/-- A run of calls that succeed. -/
theorem Counts.run (h : Counts capacity fill processed b) {calls : List WriterCall}
    {results : List Bool} (hrun : runWriter calls b = .ok (results, b'))
    (hok : false ∉ results) :
    Counts capacity (fillAfter capacity fill calls)
      (processed + bytesPassed calls + recountedBytes capacity fill calls) b' := by
  induction calls generalizing b fill processed results with
  | nil =>
      cases hrun
      exact h
  | cons call calls ih =>
      rw [runWriter] at hrun
      rcases hcall : call.run b with fault | ⟨result, b₁⟩
      · simp only [hcall] at hrun
        cases hrun
      · rcases hrest : runWriter calls b₁ with fault | ⟨rest, b₂⟩
        · simp only [hcall, hrest] at hrun
          cases hrun
        · simp only [hcall, hrest] at hrun
          cases hrun
          rw [List.mem_cons, not_or] at hok
          cases result with
          | error code => exact absurd rfl hok.1
          | ok _ =>
              have hcounts := ih (h.call hcall) hrest hok.2
              have htotal : processed + call.argument.length + call.recounted capacity fill +
                  bytesPassed calls +
                  recountedBytes capacity (call.fill capacity fill) calls =
                  processed + bytesPassed (call :: calls) +
                  recountedBytes capacity fill (call :: calls) := by
                rw [bytesPassed, recountedBytes]
                omega
              rw [htotal] at hcounts
              exact hcounts

/-- A new buffered writer has counted nothing. -/
theorem counts_newBufio (readWriter : HufReadWriter ω) (capacity : ℕ) (stream : ω) :
    Counts capacity 0 0 ⟨newBufio readWriter capacity, stream⟩ :=
  ⟨rfl, rfl, Nat.zero_le _, rfl⟩

end

/-- After successful calls, the counter is the number of bytes that were passed exactly if no
write began with a full buffer. -/
theorem runWriter_processed_iff (readWriter : HufReadWriter ω) (capacity : ℕ) (stream : ω)
    (calls : List WriterCall) {results : List Bool} {b : Buffered ω}
    (hrun : runWriter calls ⟨newBufio readWriter capacity, stream⟩ = .ok (results, b))
    (hok : false ∉ results) :
    b.bufio.haveBeenProcessed = bytesPassed calls ↔ NeverFull capacity 0 calls := by
  have hcounts := (counts_newBufio readWriter capacity stream).run hrun hok
  rw [← recountedBytes_eq_zero_iff, hcounts.processed_eq]
  omega

/-- A flush between two writes that each leave room. -/
theorem runWriter_processed_iff_two :
    ∃ b, runWriter [.write [7], .flush, .write [8]]
        ⟨newBufio memReadWriter 2, ⟨⟨[0, 0, 0, 0], 0, 0, 4⟩, []⟩⟩ = .ok ([true, true, true], b) ∧
      (b.bufio.haveBeenProcessed = bytesPassed [.write [7], .flush, .write [8]] ↔
        NeverFull 2 0 [.write [7], .flush, .write [8]]) := by
  obtain ⟨b, hrun⟩ : ∃ b, runWriter [.write [7], .flush, .write [8]]
      ⟨newBufio memReadWriter 2, ⟨⟨[0, 0, 0, 0], 0, 0, 4⟩, []⟩⟩ = .ok ([true, true, true], b) :=
    ⟨_, rfl⟩
  exact ⟨b, hrun, runWriter_processed_iff memReadWriter 2 _ _ hrun (by decide)⟩

/-- Two writes of one byte through a buffer of one byte are counted as three. -/
theorem runWriter_processed_three :
    ∃ b, runWriter [.write [7], .write [8]]
        ⟨newBufio memReadWriter 1, ⟨⟨[0, 0, 0, 0], 0, 0, 4⟩, []⟩⟩ = .ok ([true, true], b) ∧
      b.bufio.haveBeenProcessed = 3 ∧
      b.bufio.haveBeenProcessed ≠ bytesPassed [.write [7], .write [8]] :=
  ⟨_, rfl, rfl, by decide⟩

end LibHuffman
