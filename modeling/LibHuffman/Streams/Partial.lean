/-
# Streams that fail after a part of a write

A `write` that fails may have transferred a part of its data. A `PartialSink` promises
that what it holds is what it held before and a part of the data, all of it on success;
and it promises this only of writes up to a limit. File descriptors and in-memory streams
are of this kind, and so are streams that append all of a write or nothing.

The invariant `Appending` ties a buffered writer over such a stream to the bytes it has
accepted: the content of the stream followed by what the buffer holds. Each of the three
functions that write either keeps the invariant with its argument appended, or leaves with
the code of a refused write, behind bytes that it had accepted.
-/

import LibHuffman.Streams.Contract

namespace LibHuffman

open Foundation

variable {ω : Type}

/-- A stream to write to, whose writes may fail after a part of the data. -/
structure PartialSink (ω : Type) where
  readWriter : HufReadWriter ω
  /-- The bytes appended so far. -/
  content : ω → List UInt8
  /-- The states in which the stream keeps its promise; a write that succeeds does not
  leave them. -/
  valid : ω → Prop
  /-- The length of the longest write that the promise is made for. -/
  limit : ℕ
  write_part : ∀ (data : List UInt8) (s : ω), valid s → data.length ≤ limit →
    (∃ s', readWriter.write data s = .ok (.ok (), s') ∧ valid s' ∧
        content s' = content s ++ data) ∨
      ∃ code s', readWriter.write data s = .ok (.error code, s') ∧ content s <+: content s' ∧
        content s' <+: content s ++ data

/-- Some write within the limit was refused with this code. -/
def PartialSink.Refuses (sink : PartialSink ω) (code : HufError) : Prop :=
  ∃ data s s', sink.valid s ∧ data.length ≤ sink.limit ∧
    sink.readWriter.write data s = .ok (.error code, s')

/-- A stream that appends all of a write or nothing. -/
def FallibleSink.toPartialSink (sink : FallibleSink ω) (limit : ℕ) : PartialSink ω where
  readWriter := sink.readWriter
  content := sink.content
  valid _ := True
  limit := limit
  write_part data s _ _ := by
    rcases sink.write_all_or_nothing data s with ⟨s', hrun, hcontent⟩ | ⟨code, s', hrun, hcontent⟩
    · exact .inl ⟨s', hrun, trivial, hcontent⟩
    · refine .inr ⟨code, s', hrun, ?_, ?_⟩
      · simp [hcontent]
      · rw [hcontent]
        exact List.prefix_append _ _

/-- A buffered writer over `sink`, which held `base` in the beginning, that has accepted
the bytes `written`. -/
structure Appending (sink : PartialSink ω) (base : List UInt8) (b : Buffered ω)
    (written : List UInt8) : Prop where
  readWriter : b.bufio.readWriter = sink.readWriter
  valid : sink.valid b.stream
  block : b.bufio.bytes.length = b.bufio.capacity
  length_le : b.bufio.length ≤ b.bufio.capacity
  capacity_le : b.bufio.capacity ≤ sink.limit
  begun : base <+: sink.content b.stream
  content : sink.content b.stream ++ b.bufio.bytes.take b.bufio.length = written

/-- A buffered writer, with room for `capacity` bytes, whose stream has refused a write. It
had accepted `written` before, and with the data the stream was to hold a part of `total`. -/
inductive WriteRefused (sink : PartialSink ω) (base : List UInt8) (capacity : ℕ)
    (written total : List UInt8) : HufError → Buffered ω → Prop
  | behind {code : HufError} {b : Buffered ω} {data : List UInt8} {s' : ω}
      (h : Appending sink base b written) (hcapacity : b.bufio.capacity = capacity)
      (hdata : data.length ≤ sink.limit)
      (hrun : sink.readWriter.write data b.stream = .ok (.error code, s'))
      (htotal : sink.content b.stream ++ data <+: total) :
      WriteRefused sink base capacity written total code { b with stream := s' }

/-- A write was refused. The stream holds what it held in the beginning and a part of
`written`. -/
structure CutShort (sink : PartialSink ω) (base written : List UInt8) (code : HufError)
    (b : Buffered ω) : Prop where
  refuses : sink.Refuses code
  begun : base <+: sink.content b.stream
  content : sink.content b.stream <+: written

section

variable {sink : PartialSink ω} {base written total : List UInt8} {b : Buffered ω} {capacity : ℕ}
  {code : HufError}

theorem WriteRefused.mono {later : List UInt8}
    (h : WriteRefused sink base capacity written total code b) (hlater : total <+: later) :
    WriteRefused sink base capacity written later code b := by
  cases h with
  | behind h hcapacity hdata hrun htotal =>
      exact .behind h hcapacity hdata hrun (htotal.trans hlater)

/-- The stream promises to hold a part of the refused data. -/
theorem WriteRefused.cutShort (h : WriteRefused sink base capacity written total code b) :
    CutShort sink base total code b := by
  cases h with
  | @behind b data s' h hcapacity hdata hrun htotal =>
      rcases sink.write_part data b.stream h.valid hdata with
        ⟨s, hrun', -, -⟩ | ⟨code', s, hrun', hbegun, hcontent⟩
      · rw [hrun] at hrun'
        cases hrun'
      · rw [hrun] at hrun'
        cases hrun'
        exact ⟨⟨data, b.stream, _, h.valid, hdata, hrun⟩, h.begun.trans hbegun,
          hcontent.trans htotal⟩

namespace Appending

theorem slice_ok (h : Appending sink base b written) :
    slice b.bufio.bytes 0 b.bufio.length = .ok (b.bufio.bytes.take b.bufio.length) := by
  rw [slice_of_le (by rw [h.block, Nat.zero_add]; exact h.length_le)]
  rfl

theorem length_buffer (h : Appending sink base b written) :
    (b.bufio.bytes.take b.bufio.length).length ≤ sink.limit :=
  Nat.le_trans (List.length_take_le _ _) (Nat.le_trans h.length_le h.capacity_le)

/-- With an empty buffer the stream holds everything that was accepted. -/
theorem of_empty (h : Appending sink base b written) (hempty : b.bufio.length = 0) :
    sink.content b.stream = written := by
  have hcontent := h.content
  rwa [hempty, List.take_zero, List.append_nil] at hcontent

/-- A write to the stream behind the buffer. -/
theorem writeUnderlying_stops (h : Appending sink base b written) {data : List UInt8}
    (hdata : data.length ≤ sink.limit) :
    Routine.Ended
      (WriteRefused sink base b.bufio.capacity written (sink.content b.stream ++ data))
      (fun _ b' => ∃ s', b' = { b with stream := s' } ∧ sink.valid s' ∧
        sink.content s' = sink.content b.stream ++ data)
      (writeUnderlying data b) := by
  rw [writeUnderlying, Routine.get_bind_apply, h.readWriter]
  rcases sink.write_part data b.stream h.valid hdata with
    ⟨s', hrun, hvalid, hcontent⟩ | ⟨code, s', hrun, -, -⟩
  · rw [Routine.within_of_ok rfl hrun]
    exact .value ⟨s', rfl, hvalid, hcontent⟩
  · rw [Routine.within_of_ok rfl hrun]
    exact .error (.behind h rfl hdata hrun (List.prefix_refl _))

/-- Writing out the whole buffer moves its bytes to the stream. -/
theorem of_flushed (h : Appending sink base b written) {s' : ω}
    {bufio : HufBufioReadWriter ω} (hvalid : sink.valid s')
    (hc : sink.content s' = sink.content b.stream ++ b.bufio.bytes.take b.bufio.length)
    (hrw : bufio.readWriter = b.bufio.readWriter) (hbytes : bufio.bytes = b.bufio.bytes)
    (hcap : bufio.capacity = b.bufio.capacity) (hlen : bufio.length = 0) :
    Appending sink base ⟨bufio, s'⟩ written where
  readWriter := hrw.trans h.readWriter
  valid := hvalid
  block := by rw [hbytes, hcap]; exact h.block
  length_le := by rw [hlen]; exact Nat.zero_le _
  capacity_le := by rw [hcap]; exact h.capacity_le
  begun := by
    rw [hc]
    exact h.begun.trans (List.prefix_append _ _)
  content := by
    rw [hlen, List.take_zero, List.append_nil, hc]
    exact h.content

theorem flush_stops (h : Appending sink base b written) :
    Routine.Ended (WriteRefused sink base b.bufio.capacity written written)
      (fun _ b' => Appending sink base b' written ∧ b'.bufio.capacity = b.bufio.capacity ∧
        b'.bufio.length = 0)
      (hufBufioReadWriterFlush b) := by
  rw [hufBufioReadWriterFlush, Routine.get_bind_apply]
  by_cases hlen : b.bufio.length = 0
  · rw [if_neg (not_not.mpr hlen)]
    exact .value ⟨h, rfl, hlen⟩
  · rw [if_pos hlen, h.slice_ok, Routine.demand_ok_bind_apply]
    have hwrite := h.writeUnderlying_stops h.length_buffer
    rw [h.content] at hwrite
    apply hwrite.bind
    rintro _ _ ⟨s', rfl, hvalid, hcontent⟩
    rw [← h.content] at hcontent
    exact .value ⟨h.of_flushed hvalid hcontent rfl rfl rfl rfl, rfl, rfl⟩

theorem flushFull_stops (h : Appending sink base b written) :
    Routine.Ended (WriteRefused sink base b.bufio.capacity written written)
      (fun _ b' => Appending sink base b' written ∧ b'.bufio.capacity = b.bufio.capacity)
      (hufBufioReadWriterFlushFull b) := by
  rw [hufBufioReadWriterFlushFull, Routine.get_bind_apply]
  by_cases hfull : b.bufio.length ≥ b.bufio.capacity ∧ b.bufio.length ≠ 0
  · rw [if_pos hfull, h.slice_ok, Routine.demand_ok_bind_apply]
    have hwrite := h.writeUnderlying_stops h.length_buffer
    rw [h.content] at hwrite
    apply hwrite.bind
    rintro _ _ ⟨s', rfl, hvalid, hcontent⟩
    rw [← h.content] at hcontent
    exact .value ⟨h.of_flushed hvalid hcontent rfl rfl rfl rfl, rfl⟩
  · rw [if_neg hfull]
    exact .value ⟨h, rfl⟩

/-- Copying into free space of the buffer accepts the bytes. -/
theorem of_copied (h : Appending sink base b written) {buf : List UInt8}
    (hfit : b.bufio.length + buf.length ≤ b.bufio.capacity) {bufio : HufBufioReadWriter ω}
    (hrw : bufio.readWriter = b.bufio.readWriter) (hcap : bufio.capacity = b.bufio.capacity)
    (hlen : bufio.length = b.bufio.length + buf.length)
    (hbytes : bufio.bytes = b.bufio.bytes.take b.bufio.length ++ buf ++
      b.bufio.bytes.drop (b.bufio.length + buf.length)) :
    Appending sink base { b with bufio } (written ++ buf) where
  readWriter := hrw.trans h.readWriter
  valid := h.valid
  block := by
    have := h.block
    simp only [hbytes, hcap, List.length_append, List.length_take, List.length_drop]
    omega
  length_le := by
    rw [hlen, hcap]
    exact hfit
  capacity_le := by rw [hcap]; exact h.capacity_le
  begun := h.begun
  content := by
    have htake : (b.bufio.bytes.take b.bufio.length ++ buf).length =
        b.bufio.length + buf.length := by
      have := h.block
      simp only [List.length_append, List.length_take]
      omega
    rw [hbytes, hlen, List.take_left' htake, ← List.append_assoc, h.content]

/-- Bytes written past an empty buffer are accepted. -/
theorem of_direct (h : Appending sink base b written) (hempty : b.bufio.length = 0)
    {buf : List UInt8} {s' : ω} (hvalid : sink.valid s')
    (hc : sink.content s' = sink.content b.stream ++ buf) {bufio : HufBufioReadWriter ω}
    (hrw : bufio.readWriter = b.bufio.readWriter) (hcap : bufio.capacity = b.bufio.capacity)
    (hlen : bufio.length = b.bufio.length) (hbytes : bufio.bytes = b.bufio.bytes) :
    Appending sink base ⟨bufio, s'⟩ (written ++ buf) where
  readWriter := hrw.trans h.readWriter
  valid := hvalid
  block := by rw [hbytes, hcap]; exact h.block
  length_le := by rw [hlen, hcap]; exact h.length_le
  capacity_le := by rw [hcap]; exact h.capacity_le
  begun := by
    rw [hc]
    exact h.begun.trans (List.prefix_append _ _)
  content := by rw [hlen, hempty, List.take_zero, List.append_nil, hc, h.of_empty hempty]

/-- A buffered write within the limit appends its argument or is refused. -/
theorem write_stops (h : Appending sink base b written) {buf : List UInt8}
    (hbuf : buf.length ≤ sink.limit) :
    Routine.Ended (WriteRefused sink base b.bufio.capacity written (written ++ buf))
      (fun _ b' => Appending sink base b' (written ++ buf) ∧
        b'.bufio.capacity = b.bufio.capacity)
      (hufBufioWrite buf b) := by
  have hmono (capacity : ℕ) (code : HufError) (b' : Buffered ω)
      (h' : WriteRefused sink base capacity written written code b') :
      WriteRefused sink base capacity written (written ++ buf) code b' :=
    h'.mono (List.prefix_append _ _)
  rw [hufBufioWrite]
  apply (h.flushFull_stops.mono (hmono _) fun _ _ h' => h').bind
  rintro _ b₁ ⟨h₁, hcapacity₁⟩
  rw [← hcapacity₁, Routine.get_bind_apply, sizeSub_of_le h₁.length_le]
  by_cases hfit : b₁.bufio.capacity ≠ 0 ∧ buf.length ≤ b₁.bufio.capacity - b₁.bufio.length
  · have hroom : b₁.bufio.length + buf.length ≤ b₁.bufio.capacity := by
      have := h₁.length_le
      omega
    rw [if_pos hfit, memcpy_of_le (by rw [h₁.block]; exact hroom), Routine.demand_ok_bind_apply]
    exact .value ⟨h₁.of_copied hroom rfl rfl rfl rfl, rfl⟩
  rw [if_neg hfit]
  by_cases hlen : buf.length > 0
  · rw [if_pos hlen]
    apply (h₁.flush_stops.mono (hmono _) fun _ _ h' => h').bind
    rintro _ b₂ ⟨h₂, hcapacity₂, hempty⟩
    have hwrite := h₂.writeUnderlying_stops hbuf
    rw [h₂.of_empty hempty, hcapacity₂] at hwrite
    apply hwrite.bind
    rintro _ _ ⟨s', rfl, hvalid, hcontent⟩
    rw [← h₂.of_empty hempty] at hcontent
    exact .value ⟨h₂.of_direct hempty hvalid hcontent rfl rfl rfl rfl, hcapacity₂⟩
  · -- an empty argument that needs no room is accepted without an effect
    have hnil : buf = [] := List.length_eq_zero_iff.mp (by omega)
    rw [if_neg hlen, hnil, List.append_nil]
    exact .value ⟨h₁, rfl⟩

/-- A write that is refused leaves a part of what would have been accepted. -/
theorem write_ended (h : Appending sink base b written) {buf : List UInt8}
    (hbuf : buf.length ≤ sink.limit) :
    Routine.Ended (CutShort sink base (written ++ buf))
      (fun _ b' => Appending sink base b' (written ++ buf)) (hufBufioWrite buf b) :=
  (h.write_stops hbuf).mono (fun _ _ h' => h'.cutShort) fun _ _ h' => h'.1

/-- So does a flush. -/
theorem flush_ended (h : Appending sink base b written) :
    Routine.Ended (CutShort sink base written) (fun _ b' => Appending sink base b' written)
      (hufBufioReadWriterFlush b) :=
  h.flush_stops.mono (fun _ _ h' => h'.cutShort) fun _ _ h' => h'.1

end Appending

/-- A new buffered writer has accepted what its stream already holds. -/
theorem appending_newBufio (sink : PartialSink ω) {capacity : ℕ} {stream : ω}
    (hvalid : sink.valid stream) (hcapacity : capacity ≤ sink.limit) :
    Appending sink (sink.content stream) ⟨newBufio sink.readWriter capacity, stream⟩
      (sink.content stream) where
  readWriter := rfl
  valid := hvalid
  block := List.length_replicate
  length_le := Nat.zero_le _
  capacity_le := hcapacity
  begun := List.prefix_refl _
  content := by
    show sink.content stream ++ List.take 0 _ = _
    simp

end

end LibHuffman
