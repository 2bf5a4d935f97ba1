/-
# Reading from a descriptor

`fdread` converts the result of `read` to an unsigned number before it compares
it with zero, so that a failed `read` counts as one of `SIZE_MAX` bytes. The
buffered reader takes the number at its word: it is never too small, and the
request succeeds with bytes that nobody supplied. A run is exact only if `read`
does not fail, and if nothing is read behind a failure that left the offset past
the length.
-/

import LibHuffman.Streams.Failures
import LibHuffman.Model.Descriptor

namespace LibHuffman

open Foundation

/-! ## Runs over a descriptor -/

/-- A call of `huf_bufio_read`: how many bytes were requested, what it returned,
what `read` returned to it, and what it left behind. -/
structure FdCall where
  request : ℕ
  result : Except HufError (List UInt8)
  reads : List (Option (List UInt8))
  after : Buffered Descriptor

/-- The bytes that `read` supplied to a call. -/
def FdCall.supplied (call : FdCall) : List UInt8 := (call.reads.map (·.getD [])).flatten

/-- Read into the given destinations one after the other, whatever the calls
return. -/
def traceReads : List (List UInt8) → Buffered Descriptor → Except Fault (List FdCall)
  | [], _ => .ok []
  | buf :: bufs, b => do
    let (result, b') ← hufBufioRead buf b
    let reads := b'.stream.haveRead.drop b.stream.haveRead.length
    return ⟨buf.length, result, reads, b'⟩ :: (← traceReads bufs b')

/-- A call that fails if a `read` it needed did, and that leaves the offsets in
order if it succeeds. -/
structure FdCall.Honest (call : FdCall) : Prop where
  failed : none ∈ call.reads → call.result = .error .readWrite
  ordered : ∀ data, call.result = .ok data → call.after.bufio.gauge.Ordered

/-- The calls pass on the bytes that are supplied to them, in order, where the
first have been supplied before. A call that fails may lose some. -/
def Delivers : List UInt8 → List FdCall → Prop
  | _, [] => True
  | held, call :: calls => ∃ passed left, held ++ call.supplied = passed ++ left ∧
    (∀ data, call.result = .ok data → data = passed ∧ data.length = call.request) ∧
    Delivers left calls

/-- A run passes on what the descriptor supplies and reports what it does not. -/
def FdExact (held : List UInt8) (bufs : List (List UInt8)) (b : Buffered Descriptor) : Prop :=
  ∃ calls, traceReads bufs b = .ok calls ∧ Delivers held calls ∧ ∀ call ∈ calls, call.Honest

/-- No `read` that a run needs fails, and no request follows a call that
overshoots. -/
def SuppliedInTime : List (Option (List UInt8)) → Gauge → List ℕ → Prop
  | _, _, [] => True
  | reads, g, len :: lens =>
    if g.missing len = 0 then SuppliedInTime reads (g.after len 0) lens
    else
      match reads.headD (some []) with
      | none => False
      | some data =>
        let count := min (g.asked len) data.length
        (lens = [] ∨ ¬ g.Overshoots len count) ∧
          SuppliedInTime reads.tail (g.after len count) lens

/-! ## One system call -/

section

variable {d : Descriptor} {count : ℕ}

theorem fdread_some {data : List UInt8} (h : d.reads.headD (some []) = some data) :
    fdread count d = .ok (⟨none, data.take count, (data.take count).length⟩,
      ⟨d.reads.tail, d.writes, d.haveRead ++ [some (data.take count)], d.haveWritten⟩) := by
  simp only [fdread, Descriptor.read, h, Option.map_some, Option.getD_some, toSize]
  rfl

/-- A failed `read` reports success and a count of `SIZE_MAX`. -/
theorem fdread_none (h : d.reads.headD (some []) = none) :
    fdread count d = .ok (⟨none, [], sizeMax⟩,
      ⟨d.reads.tail, d.writes, d.haveRead ++ [none], d.haveWritten⟩) := by
  simp only [fdread, Descriptor.read, h, Option.map_none, Option.getD_none, toSize]
  rfl

end

/-! ## One call of a run -/

/-- The record of a call. -/
def fdCall (buf : List UInt8) (b : Buffered Descriptor) (result : Except HufError (List UInt8))
    (b' : Buffered Descriptor) : FdCall :=
  ⟨buf.length, result, b'.stream.haveRead.drop b.stream.haveRead.length, b'⟩

section

variable {b b' : Buffered Descriptor} {buf held : List UInt8} {bufs : List (List UInt8)}
  {result : Except HufError (List UInt8)}

/-- The first call of a run and the others. -/
theorem fdExact_cons (h : hufBufioRead buf b = .ok (result, b')) :
    FdExact held (buf :: bufs) b ↔
      (fdCall buf b result b').Honest ∧ ∃ passed left,
        held ++ (fdCall buf b result b').supplied = passed ++ left ∧
        (∀ data, result = .ok data → data = passed ∧ data.length = buf.length) ∧
        FdExact left bufs b' := by
  have htrace : traceReads (buf :: bufs) b =
      (traceReads bufs b' >>= fun calls => pure (fdCall buf b result b' :: calls)) := by
    rw [traceReads, h]
    rfl
  rw [FdExact, htrace]
  apply Iff.intro
  · intro hexact
    rcases hexact with ⟨calls, hrun, hdelivers, hhonest⟩
    cases hlater : traceReads bufs b' with
    | error fault =>
        rw [hlater] at hrun
        cases hrun
    | ok later =>
        rw [hlater] at hrun
        cases hrun
        rcases hdelivers with ⟨passed, left, hsplit, hpassed, hdelivers⟩
        exact ⟨hhonest _ List.mem_cons_self, passed, left, hsplit, hpassed, later, hlater,
          hdelivers, fun call hcall => hhonest call (List.mem_cons_of_mem _ hcall)⟩
  · intro hexact
    rcases hexact with ⟨hfirst, passed, left, hsplit, hpassed, later, hlater, hdelivers, hhonest⟩
    refine ⟨fdCall buf b result b' :: later, by rw [hlater]; rfl,
      ⟨passed, left, hsplit, hpassed, hdelivers⟩, ?_⟩
    intro call hcall
    cases hcall with
    | head => exact hfirst
    | tail _ hcall => exact hhonest call hcall

theorem not_fdExact_of_fault {fault : Fault} (h : hufBufioRead buf b = .error fault) :
    ¬ FdExact held (buf :: bufs) b := by
  intro hexact
  rcases hexact with ⟨calls, hrun, -⟩
  rw [traceReads, h] at hrun
  cases hrun

/-- The call behind one that overshoots: the number of bytes left in the buffer
wraps, and they are copied from behind its content. -/
theorem not_fdExact_of_overshot (hover : b.bufio.length < b.bufio.offset)
    (hoffset : b.bufio.offset ≤ b.bufio.bytes.length) (hbytes : b.bufio.bytes.length ≤ sizeMax) :
    ¬ FdExact held (buf :: bufs) b := by
  have havailable : sizeSub b.bufio.length b.bufio.offset =
      sizeMax + 1 - (b.bufio.offset - b.bufio.length) := if_neg (Nat.not_le.mpr hover)
  have hordered : ∀ (offset : ℕ) (data : List UInt8), b.bufio.length < offset →
      hufBufioRead buf b = .ok (.ok data,
        ⟨{ b.bufio with offset }.count buf.length, b.stream⟩) →
      ¬ FdExact held (buf :: bufs) b := by
    intro offset data hlt hrun hexact
    have hhonest := ((fdExact_cons hrun).mp hexact).1.ordered _ rfl
    exact Nat.not_lt.mpr hhonest.1 hlt
  rcases Nat.eq_zero_or_pos buf.length with hempty | hpos
  · -- nothing is requested, and the call succeeds
    have hcopy : copyBuffered buf.length b = .ok (.ok [], b) := by
      rw [copyBuffered, Routine.get_bind_apply, if_neg (by omega)]
      rfl
    apply hordered b.bufio.offset [] hover
    rw [hufBufioRead, Routine.bind_of_ok hcopy, List.length_nil, List.drop_zero, if_pos hempty]
    rfl
  set count := if sizeSub b.bufio.length b.bufio.offset > buf.length then buf.length
    else sizeSub b.bufio.length b.bufio.offset with hcount
  by_cases hfit : b.bufio.offset + count ≤ b.bufio.bytes.length
  · -- the bytes behind the content are still in the buffer
    have hall : count = buf.length := by
      rw [hcount, havailable] at hfit ⊢
      split at hfit
      · rw [if_pos ‹_›]
      · omega
    have hcopy : copyBuffered buf.length b =
        .ok (.ok ((b.bufio.bytes.drop b.bufio.offset).take count),
          ⟨b.bufio.deliver count, b.stream⟩) := by
      rw [copyBuffered, Routine.get_bind_apply, if_pos (by omega), ← hcount, slice_of_le hfit]
      rfl
    have hlength : ((b.bufio.bytes.drop b.bufio.offset).take count).length = buf.length := by
      rw [List.length_take, List.length_drop]
      omega
    apply hordered (b.bufio.offset + count)
      ((b.bufio.bytes.drop b.bufio.offset).take count ++ []) (by omega)
    rw [hufBufioRead, Routine.bind_of_ok hcopy, hlength, List.drop_length, List.length_nil,
      if_pos rfl]
    rfl
  · -- they are not
    have hcopy : copyBuffered buf.length b = .error .outOfBounds := by
      rw [copyBuffered, Routine.get_bind_apply, if_pos (by omega), ← hcount, slice, if_neg hfit]
      rfl
    have hfault : hufBufioRead buf b = .error .outOfBounds := by
      rw [hufBufioRead, Routine.bind_of_fault hcopy]
    exact not_fdExact_of_fault hfault

/-- A buffer over a descriptor, with its offsets in order. -/
structure FdReading (b : Buffered Descriptor) : Prop where
  inOrder : InOrder b.bufio
  readWriter : b.bufio.readWriter = fdReadWriter
  capacity_le : b.bufio.capacity ≤ sizeMax

/-- A call that needs a `read` that fails succeeds all the same. -/
theorem FdReading.failed (h : FdReading b) (hlen : buf.length ≤ sizeMax)
    (hmissing : 0 < b.bufio.missing buf.length) (hreads : b.stream.reads.headD (some []) = none) :
    ¬ FdExact held (buf :: bufs) b := by
  have hle : b.bufio.missing buf.length ≤ sizeMax := Nat.le_trans (Nat.sub_le _ _) hlen
  have hfails : ∀ (data : List UInt8) (b' : Buffered Descriptor),
      hufBufioRead buf b = .ok (.ok data, b') →
      b'.stream.haveRead = b.stream.haveRead ++ [none] → ¬ FdExact held (buf :: bufs) b := by
    intro data b' hrun hhistory hexact
    have hnone : none ∈ (fdCall buf b (.ok data) b').reads := by
      rw [fdCall, hhistory, List.drop_left]
      exact List.mem_cons_self
    cases ((fdExact_cons hrun).mp hexact).1.failed hnone
  have hread : ∀ count, b.bufio.readWriter.read count b.stream =
      .ok (⟨none, [], sizeMax⟩, ⟨b.stream.reads.tail, b.stream.writes,
        b.stream.haveRead ++ [none], b.stream.haveWritten⟩) := by
    intro count
    rw [h.readWriter]
    exact fdread_none hreads
  by_cases hdirect : b.bufio.capacity ≤ b.bufio.missing buf.length
  · exact hfails _ _ (hufBufioRead_direct_ok h.inOrder hmissing hdirect (hread _)
      (Nat.zero_le _) hle) rfl
  · exact hfails _ _ (hufBufioRead_refill_ok h.inOrder hmissing (Nat.lt_of_not_le hdirect)
      (hread _) (Nat.zero_le _) hle) rfl

/-- A call moves on in order unless it overshoots. -/
theorem FdReading.next {supplied : List UInt8} {stream : Descriptor} (h : FdReading b)
    (hstep : ReadStep b buf.length supplied stream result b')
    (hordered : b'.bufio.gauge.Ordered) : FdReading b' := by
  have hcapacity : b'.bufio.capacity = b.bufio.capacity := by
    have hgauge := congrArg Gauge.capacity hstep.gauge
    rw [Gauge.capacity_after] at hgauge
    exact hgauge
  exact ⟨⟨hstep.block, hordered.1, hordered.2⟩, hstep.readWriter.trans h.readWriter,
    hcapacity ▸ h.capacity_le⟩

/-- How a call ends that needs no `read` that fails, where `supplied` is what the
descriptor gives to it and `reads` are the outcomes it leaves. -/
structure FdStep (b : Buffered Descriptor) (buf supplied : List UInt8)
    (reads : List (Option (List UInt8))) (result : Except HufError (List UInt8))
    (b' : Buffered Descriptor) : Prop where
  gauge : b'.bufio.gauge = b.bufio.gauge.after buf.length supplied.length
  next : b'.bufio.gauge.Ordered → FdReading b'
  block : b'.bufio.bytes.length = b'.bufio.capacity
  reads : b'.stream.reads = reads
  honest : (fdCall buf b result b').Honest
  passed : ∃ passed, b.bufio.unread ++ (fdCall buf b result b').supplied =
      passed ++ b'.bufio.unread ∧
    ∀ data, result = .ok data → data = passed ∧ data.length = buf.length

theorem FdReading.fdStep {supplied : List UInt8} {stream : Descriptor}
    {outcomes : List (Option (List UInt8))} (h : FdReading b)
    (hstep : ReadStep b buf.length supplied stream result b')
    (hasked : supplied.length ≤ b.bufio.gauge.asked buf.length)
    (hhistory : b'.stream.haveRead = b.stream.haveRead ++ outcomes)
    (hfailed : none ∉ outcomes)
    (hsupplied : (outcomes.map (·.getD [])).flatten =
      if b.bufio.missing buf.length = 0 then [] else supplied) :
    FdStep b buf supplied b'.stream.reads result b' := by
  have hreads : (fdCall buf b result b').reads = outcomes := by
    rw [fdCall, hhistory]
    exact List.drop_left
  rcases hstep.taken with ⟨taken, hsplit, hresult⟩
  refine ⟨hstep.gauge, h.next hstep, hstep.block, rfl, ⟨?_, ?_⟩, taken, ?_, ?_⟩
  · intro hmem
    exact absurd (hreads ▸ hmem) hfailed
  · intro data hok
    exact hstep.ordered_of_ok h.inOrder hasked hok
  · rw [FdCall.supplied, hreads, hsupplied, hsplit]
  · intro data hok
    rcases hresult with ⟨htaken, hlength, -⟩ | ⟨herror, -⟩
    · rw [htaken] at hok
      cases hok
      exact ⟨rfl, hlength⟩
    · rw [herror] at hok
      cases hok

/-- A call that the buffer serves alone. -/
theorem FdReading.step_served (h : FdReading b) (hserved : b.bufio.missing buf.length = 0) :
    ∃ result b', hufBufioRead buf b = .ok (result, b') ∧
      FdStep b buf [] b.stream.reads result b' := by
  have hnothing : ([] : List UInt8).length ≤ b.bufio.gauge.asked buf.length := Nat.zero_le _
  obtain ⟨result, b', hrun, hstep⟩ := hufBufioRead_step h.inOrder buf hnothing
    (fun hmissing => (absurd hserved (Nat.ne_of_gt hmissing) :
      b.bufio.readWriter.read _ b.stream = .ok (⟨none, [], 0⟩, b.stream)))
  have hstream : b'.stream = b.stream := by rw [hstep.stream, if_pos hserved]
  have hfd := h.fdStep hstep hnothing (by rw [hstream, List.append_nil])
    List.not_mem_nil (by rw [if_pos hserved]; rfl)
  rw [hstream] at hfd
  exact ⟨result, b', hrun, hfd⟩

/-- A call that needs a `read`, which succeeds. -/
theorem FdReading.step_read {data : List UInt8} (h : FdReading b)
    (hmissing : b.bufio.missing buf.length ≠ 0)
    (hreads : b.stream.reads.headD (some []) = some data) :
    ∃ result b', hufBufioRead buf b = .ok (result, b') ∧
      FdStep b buf (data.take (b.bufio.gauge.asked buf.length)) b.stream.reads.tail result b' := by
  have hasked : (data.take (b.bufio.gauge.asked buf.length)).length ≤
      b.bufio.gauge.asked buf.length := List.length_take_le _ _
  obtain ⟨result, b', hrun, hstep⟩ := hufBufioRead_step h.inOrder buf hasked fun _ => by
    rw [h.readWriter]
    exact fdread_some hreads
  have hstream := hstep.stream
  rw [if_neg hmissing] at hstream
  have hfd := h.fdStep hstep hasked (by rw [hstream]) (by simp) (by rw [if_neg hmissing]; simp)
  rw [hstream] at hfd
  exact ⟨result, b', hrun, hfd⟩

section

variable {supplied : List UInt8} {reads : List (Option (List UInt8))}

theorem FdStep.ordered_iff (hstep : FdStep b buf supplied reads result b') (h : FdReading b)
    (hasked : supplied.length ≤ b.bufio.gauge.asked buf.length) :
    b'.bufio.gauge.Ordered ↔ ¬ b.bufio.gauge.Overshoots buf.length supplied.length := by
  rw [hstep.gauge]
  exact Gauge.ordered_after_iff ⟨h.inOrder.offset_le, h.inOrder.length_le⟩ hasked

/-- The first call of an exact run. -/
theorem FdStep.fdExact (hstep : FdStep b buf supplied reads result b')
    (hrun : hufBufioRead buf b = .ok (result, b'))
    (hrest : FdExact b'.bufio.unread bufs b') : FdExact b.bufio.unread (buf :: bufs) b := by
  rcases hstep.passed with ⟨passed, hsplit, hresult⟩
  exact (fdExact_cons hrun).mpr
    ⟨hstep.honest, passed, b'.bufio.unread, hsplit, hresult, hrest⟩

/-- No run that goes on behind a call that overshoots is exact. -/
theorem FdStep.not_fdExact (hstep : FdStep b buf supplied reads result b') (h : FdReading b)
    (hover : b.bufio.gauge.Overshoots buf.length supplied.length) {later : List UInt8} :
    ¬ FdExact held (later :: bufs) b' := by
  rcases hover with ⟨hrefill, hfew, hless⟩
  have hmissing : b.bufio.gauge.missing buf.length ≠ 0 := Nat.ne_of_gt (Nat.zero_lt_of_lt hfew)
  have hgauge := hstep.gauge
  rw [Gauge.after_refill hmissing hrefill, if_neg (Nat.not_le.mpr hfew)] at hgauge
  have hoffset : b'.bufio.offset = b.bufio.length := congrArg Gauge.offset hgauge
  have hlength : b'.bufio.length = supplied.length := congrArg Gauge.length hgauge
  have hcapacity : b'.bufio.capacity = b.bufio.capacity := congrArg Gauge.capacity hgauge
  have hle := h.inOrder.length_le
  have hmax := h.capacity_le
  apply not_fdExact_of_overshot
  · rw [hoffset, hlength]
    exact hless
  · rw [hstep.block, hoffset, hcapacity]
    exact hle
  · rw [hstep.block, hcapacity]
    exact hmax

end

end

/-! ## Runs -/

/-- A run that is exact needs no `read` that fails and no request behind a call
that overshoots. -/
theorem FdExact.suppliedInTime (bufs : List (List UInt8)) {held : List UInt8}
    {b : Buffered Descriptor} (h : FdReading b) (hlens : ∀ buf ∈ bufs, buf.length ≤ sizeMax)
    (hexact : FdExact held bufs b) :
    SuppliedInTime b.stream.reads b.bufio.gauge (bufs.map List.length) := by
  induction bufs generalizing held b with
  | nil => trivial
  | cons buf bufs ih =>
      have hlater : ∀ buf ∈ bufs, buf.length ≤ sizeMax :=
        fun buf hbuf => hlens buf (List.mem_cons_of_mem _ hbuf)
      rw [List.map_cons, SuppliedInTime]
      split
      · rename_i hserved
        rcases h.step_served hserved with ⟨result, b', hrun, hstep⟩
        rcases (fdExact_cons hrun).mp hexact with ⟨-, passed, left, -, -, hrest⟩
        have hordered := (hstep.ordered_iff h (Nat.zero_le _)).mpr
          fun hover => absurd hserved (Nat.ne_of_gt (Nat.zero_lt_of_lt hover.2.1))
        have hnext := ih (hstep.next hordered) hlater hrest
        rw [hstep.gauge, hstep.reads] at hnext
        exact hnext
      · rename_i hmissing
        cases hreads : b.stream.reads.headD (some []) with
        | none =>
            exact h.failed (hlens buf List.mem_cons_self) (Nat.pos_of_ne_zero hmissing) hreads
              hexact
        | some data =>
            rcases h.step_read hmissing hreads with ⟨result, b', hrun, hstep⟩
            rcases (fdExact_cons hrun).mp hexact with ⟨-, passed, left, -, -, hrest⟩
            have hcount : (data.take (b.bufio.gauge.asked buf.length)).length =
                min (b.bufio.gauge.asked buf.length) data.length := List.length_take
            have hordered := hstep.ordered_iff h (List.length_take_le _ _)
            rw [hcount] at hordered
            by_cases hover : b.bufio.gauge.Overshoots buf.length
                (min (b.bufio.gauge.asked buf.length) data.length)
            · cases bufs with
              | nil => exact ⟨Or.inl rfl, trivial⟩
              | cons later bufs => exact absurd hrest (hstep.not_fdExact h (hcount ▸ hover))
            · have hnext := ih (hstep.next (hordered.mpr hover)) hlater hrest
              rw [hstep.gauge, hstep.reads, hcount] at hnext
              exact ⟨Or.inr hover, hnext⟩

/-- A run that needs no `read` that fails and makes no request behind a call that
overshoots is exact. -/
theorem SuppliedInTime.fdExact (bufs : List (List UInt8)) {b : Buffered Descriptor}
    (h : FdReading b)
    (hsupplied : SuppliedInTime b.stream.reads b.bufio.gauge (bufs.map List.length)) :
    FdExact b.bufio.unread bufs b := by
  induction bufs generalizing b with
  | nil => exact ⟨[], rfl, trivial, fun call hcall => absurd hcall List.not_mem_nil⟩
  | cons buf bufs ih =>
      rw [List.map_cons, SuppliedInTime] at hsupplied
      split at hsupplied
      · rename_i hserved
        rcases h.step_served hserved with ⟨result, b', hrun, hstep⟩
        have hordered := (hstep.ordered_iff h (Nat.zero_le _)).mpr
          fun hover => absurd hserved (Nat.ne_of_gt (Nat.zero_lt_of_lt hover.2.1))
        apply hstep.fdExact hrun
        apply ih (hstep.next hordered)
        rw [hstep.gauge, hstep.reads]
        exact hsupplied
      · rename_i hmissing
        cases hreads : b.stream.reads.headD (some []) with
        | none =>
            rw [hreads] at hsupplied
            exact hsupplied.elim
        | some data =>
            rw [hreads] at hsupplied
            rcases h.step_read hmissing hreads with ⟨result, b', hrun, hstep⟩
            have hcount : (data.take (b.bufio.gauge.asked buf.length)).length =
                min (b.bufio.gauge.asked buf.length) data.length := List.length_take
            rcases hsupplied with ⟨hfits, hrest⟩
            apply hstep.fdExact hrun
            rcases hfits with hlast | hfits
            · rw [List.map_eq_nil_iff.mp hlast]
              exact ⟨[], rfl, trivial, fun call hcall => absurd hcall List.not_mem_nil⟩
            · have hordered := (hstep.ordered_iff h (List.length_take_le _ _)).mpr (hcount ▸ hfits)
              apply ih (hstep.next hordered)
              rw [hstep.gauge, hstep.reads, hcount]
              exact hrest

/-- Over any sequence of outcomes of `read`, a run of requests through a buffer of
any capacity passes on only what the descriptor supplied, reports every failed
`read` that it needed and keeps its offsets in order, if and only if no `read` it
needed failed and nothing was requested behind a call that overshot. -/
theorem traceReads_exact_iff (capacity : ℕ) (hcapacity : capacity ≤ sizeMax)
    (reads : List (Option (List UInt8))) (writes : List (Option ℕ)) (bufs : List (List UInt8))
    (hlens : ∀ buf ∈ bufs, buf.length ≤ sizeMax) :
    FdExact [] bufs ⟨newBufio fdReadWriter capacity, ⟨reads, writes, [], []⟩⟩ ↔
      SuppliedInTime reads ⟨capacity, 0, 0⟩ (bufs.map List.length) := by
  have hfresh : FdReading ⟨newBufio fdReadWriter capacity, ⟨reads, writes, [], []⟩⟩ :=
    ⟨⟨List.length_replicate, Nat.le_refl _, Nat.zero_le _⟩, rfl, hcapacity⟩
  apply Iff.intro
  · intro hexact
    exact hexact.suppliedInTime bufs hfresh hlens
  · intro hsupplied
    exact hsupplied.fdExact bufs hfresh

/-- Two requests for three bytes, through a buffer of four, where `read` gives
four bytes and then two. -/
theorem traceReads_exact_twoReads :
    FdExact [] [[0, 0, 0], [0, 0, 0]]
        ⟨newBufio fdReadWriter 4, ⟨[some [1, 2, 3, 4], some [5, 6]], [], [], []⟩⟩ ↔
      SuppliedInTime [some [1, 2, 3, 4], some [5, 6]] ⟨4, 0, 0⟩ [3, 3] :=
  traceReads_exact_iff 4 (by decide) [some [1, 2, 3, 4], some [5, 6]] []
    [[0, 0, 0], [0, 0, 0]] (by decide)

/-- A request for one byte succeeds though the only `read` fails. -/
theorem traceReads_not_exact :
    ¬ FdExact [] [[7]] ⟨newBufio fdReadWriter 0, ⟨[none], [], [], []⟩⟩ := by
  intro h
  rcases h with ⟨calls, hrun, -, hhonest⟩
  cases hrun
  cases (hhonest _ List.mem_cons_self).failed List.mem_cons_self

end LibHuffman
