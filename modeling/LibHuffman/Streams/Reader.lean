/-
# Buffered reading equals unbuffered reading

The invariant `Reading` ties a buffered reader over a source to the bytes it has
not delivered: what is left in the buffer followed by what the source still
holds. A call that asks for no more than that delivers the next bytes, keeps the
invariant and counts them; any other call fails. The capacity appears nowhere in
these statements.
-/

import LibHuffman.Streams.BufferedRead

namespace LibHuffman

open Foundation

variable {ρ : Type}

/-! ## One call over a source -/

/-- A buffered reader over `src` that has still to deliver `rest`. -/
structure Reading (src : Source ρ) (b : Buffered ρ) (rest : List UInt8) : Prop where
  readWriter : b.bufio.readWriter = src.readWriter
  valid : src.valid b.stream
  block : b.bufio.bytes.length = b.bufio.capacity
  offset_le : b.bufio.offset ≤ b.bufio.length
  length_le : b.bufio.length ≤ b.bufio.capacity
  rest : b.bufio.unread ++ src.remaining b.stream = rest

section

variable {src : Source ρ} {b : Buffered ρ} {rest : List UInt8}

theorem Reading.inOrder (h : Reading src b rest) : InOrder b.bufio :=
  ⟨h.block, h.offset_le, h.length_le⟩

theorem Reading.length_rest (h : Reading src b rest) :
    rest.length = b.bufio.length - b.bufio.offset + (src.remaining b.stream).length := by
  rw [← h.rest, List.length_append, h.inOrder.length_unread]

/-- A call over a source, which delivers what it is asked for as far as it can. -/
theorem hufBufioRead_source (h : Reading src b rest) (buf : List UInt8) :
    ∃ supplied stream result b', hufBufioRead buf b = .ok (result, b') ∧
      ReadStep b buf.length supplied stream result b' ∧
      supplied.length = min (b.bufio.gauge.asked buf.length) (src.remaining b.stream).length ∧
      src.valid b'.stream ∧
      (if b.bufio.missing buf.length = 0 then [] else supplied) ++ src.remaining b'.stream =
        src.remaining b.stream := by
  obtain ⟨stream, hread, hvalid, hremaining⟩ :=
    src.read_delivers (b.bufio.gauge.asked buf.length) b.stream h.valid
  rw [← h.readWriter, ← List.length_take] at hread
  obtain ⟨result, b', hrun, hstep⟩ := hufBufioRead_step h.inOrder buf
    (List.length_take_le _ _) (fun _ => hread)
  refine ⟨_, stream, result, b', hrun, hstep, List.length_take, ?_, ?_⟩
  · rw [hstep.stream]
    split
    · exact h.valid
    · exact hvalid
  · rw [hstep.stream]
    split
    · rfl
    · rw [hremaining, List.take_append_drop]

/-- A read of no more than what is left delivers the next bytes and counts
them. -/
theorem hufBufioRead_ok (h : Reading src b rest) (buf : List UInt8)
    (hbuf : buf.length ≤ rest.length) :
    ∃ b', hufBufioRead buf b = .ok (.ok (rest.take buf.length), b') ∧
      Reading src b' (rest.drop buf.length) ∧
      b'.bufio.haveBeenProcessed = b.bufio.haveBeenProcessed + buf.length := by
  obtain ⟨supplied, stream, result, b', hrun, hstep, hsupplied, hvalid, hsplit⟩ :=
    hufBufioRead_source h buf
  have henough : b.bufio.missing buf.length ≤ supplied.length := by
    have hrest := h.length_rest
    have hmissing := b.bufio.missing_eq buf.length
    have hasked : b.bufio.missing buf.length ≤ b.bufio.gauge.asked buf.length :=
      b.bufio.gauge.missing_le_asked buf.length
    omega
  obtain ⟨taken, htaken, ⟨rfl, hlen, hcount⟩ | ⟨-, hlt, -⟩⟩ := hstep.taken
  · have hrest : rest = taken ++ (b'.bufio.unread ++ src.remaining b'.stream) := by
      rw [← h.rest, ← hsplit, ← List.append_assoc, ← htaken, List.append_assoc]
    have hordered : b'.bufio.gauge.Ordered := by
      rw [hstep.gauge]
      exact (Gauge.ordered_after_iff ⟨h.offset_le, h.length_le⟩ (by omega)).mpr
        fun hover => Nat.not_lt.mpr henough hover.2.1
    refine ⟨b', ?_, ⟨hstep.readWriter.trans h.readWriter, hvalid, hstep.block, hordered.1,
      hordered.2, ?_⟩, hcount⟩
    · rw [hrun, hrest, List.take_left' hlen]
    · rw [hrest, List.drop_left' hlen]
  · exact absurd hlt (Nat.not_lt.mpr henough)

/-- A read of more than what is left fails and counts nothing. -/
theorem hufBufioRead_error (h : Reading src b rest) (buf : List UInt8)
    (hbuf : rest.length < buf.length) :
    ∃ b', hufBufioRead buf b = .ok (.error .readWrite, b') ∧
      b'.bufio.haveBeenProcessed = b.bufio.haveBeenProcessed := by
  obtain ⟨supplied, stream, result, b', hrun, hstep, hsupplied, -, -⟩ :=
    hufBufioRead_source h buf
  have hshort : supplied.length < b.bufio.missing buf.length := by
    have hrest := h.length_rest
    have hmissing := b.bufio.missing_eq buf.length
    omega
  obtain ⟨taken, htaken, ⟨rfl, hlen, -⟩ | ⟨rfl, -, hcount⟩⟩ := hstep.taken
  · have htotal := congrArg List.length htaken
    rw [if_neg (Nat.ne_of_gt (Nat.zero_lt_of_lt hshort)), List.length_append, List.length_append,
      h.inOrder.length_unread] at htotal
    have hmissing := b.bufio.missing_eq buf.length
    omega
  · exact ⟨b', hrun, hcount⟩

/-- One byte, if there is one. -/
theorem hufBufioReadUint8_ok {next : UInt8} (h : Reading src b (next :: rest)) (byte : UInt8) :
    ∃ b', hufBufioReadUint8 byte b = .ok (.ok next, b') ∧ Reading src b' rest ∧
      b'.bufio.haveBeenProcessed = b.bufio.haveBeenProcessed + 1 := by
  obtain ⟨b', hread, h', hcount⟩ :=
    hufBufioRead_ok h [byte] (by rw [List.length_cons]; exact Nat.le_add_left _ _)
  refine ⟨b', ?_, h', hcount⟩
  rw [hufBufioReadUint8, Routine.bind_of_ok hread]
  rfl

theorem hufBufioReadUint8_error (h : Reading src b []) (byte : UInt8) :
    ∃ b', hufBufioReadUint8 byte b = .ok (.error .readWrite, b') := by
  obtain ⟨b', hread, -⟩ := hufBufioRead_error h [byte] Nat.one_pos
  refine ⟨b', ?_⟩
  rw [hufBufioReadUint8, Routine.bind_of_error hread]

/-- A new buffered reader has still to deliver what its source holds. -/
theorem reading_newBufio (src : Source ρ) (capacity : ℕ) {stream : ρ} (hvalid : src.valid stream) :
    Reading src ⟨newBufio src.readWriter capacity, stream⟩ (src.remaining stream) where
  readWriter := rfl
  valid := hvalid
  block := List.length_replicate
  offset_le := Nat.le_refl 0
  length_le := Nat.zero_le _
  rest := by
    rw [HufBufioReadWriter.unread]
    show List.drop 0 (List.take 0 _) ++ _ = _
    simp

end

/-! ## Counting the bytes of one content -/

/-- A buffered reader that has delivered all but `left` of `total` bytes. -/
structure Draining (src : Source ρ) (total : ℕ) (b : Buffered ρ) (left : List UInt8) : Prop
    extends Reading src b left where
  counted : b.bufio.haveBeenProcessed + left.length = total

section

variable {src : Source ρ} {total : ℕ} {b : Buffered ρ} {rest : List UInt8}

theorem Draining.read_ok (h : Draining src total b rest) (buf : List UInt8)
    (hbuf : buf.length ≤ rest.length) :
    ∃ b', hufBufioRead buf b = .ok (.ok (rest.take buf.length), b') ∧
      Draining src total b' (rest.drop buf.length) := by
  obtain ⟨b', hread, h', hcount⟩ := hufBufioRead_ok h.toReading buf hbuf
  refine ⟨b', hread, h', ?_⟩
  have := h.counted
  simp only [hcount, List.length_drop]
  omega

theorem Draining.readUint8_ok {next : UInt8} (h : Draining src total b (next :: rest))
    (byte : UInt8) :
    ∃ b', hufBufioReadUint8 byte b = .ok (.ok next, b') ∧ Draining src total b' rest := by
  obtain ⟨b', hread, h', hcount⟩ := hufBufioReadUint8_ok h.toReading byte
  refine ⟨b', hread, h', ?_⟩
  have := h.counted
  simp only [List.length_cons] at this
  omega

end

/-! ## Whole runs -/

/-- Read into the given destinations one after the other, up to and including
the first call that fails, and list what each call returned and left behind. -/
def runReader : List (List UInt8) → Buffered ρ →
    Except Fault (List (Except HufError (List UInt8) × Buffered ρ))
  | [], _ => .ok []
  | buf :: bufs, b =>
    match hufBufioRead buf b with
    | .error fault => .error fault
    | .ok (.error code, b') => .ok [(.error code, b')]
    | .ok (.ok data, b') =>
      match runReader bufs b' with
      | .error fault => .error fault
      | .ok calls => .ok ((.ok data, b') :: calls)

/-- The same without a buffer: what requests of these lengths get from a stream
that holds `rest`. -/
def readUnbuffered : List ℕ → List UInt8 → List (Except HufError (List UInt8))
  | [], _ => []
  | len :: lens, rest =>
    if len ≤ rest.length then .ok (rest.take len) :: readUnbuffered lens (rest.drop len)
    else [.error .readWrite]

/-- The buffer is in order and its counter has the given value. -/
structure Consistent (bufio : HufBufioReadWriter ρ) (processed : ℕ) : Prop where
  offset_le : bufio.offset ≤ bufio.length
  length_le : bufio.length ≤ bufio.capacity
  counter : bufio.haveBeenProcessed = processed

theorem runReader_of_reading {src : Source ρ} (bufs : List (List UInt8)) {b : Buffered ρ}
    {rest : List UInt8} (h : Reading src b rest) :
    ∃ calls, runReader bufs b = .ok calls ∧
      calls.map (·.1) = readUnbuffered (bufs.map List.length) rest ∧
      (∀ i data b', calls[i]? = some (.ok data, b') →
        Consistent b'.bufio
          (b.bufio.haveBeenProcessed + ((bufs.map List.length).take (i + 1)).sum)) ∧
      ∀ i code b', calls[i]? = some (.error code, b') →
        b'.bufio.haveBeenProcessed =
          b.bufio.haveBeenProcessed + ((bufs.map List.length).take i).sum := by
  induction bufs generalizing b rest with
  | nil =>
      exact ⟨[], rfl, rfl, fun i data b' hi => by simp at hi, fun i code b' hi => by simp at hi⟩
  | cons buf bufs ih =>
      by_cases hle : buf.length ≤ rest.length
      · obtain ⟨b₁, hread, h₁, hcount⟩ := hufBufioRead_ok h buf hle
        obtain ⟨calls, hrun, hdata, hconsistent, hfailed⟩ := ih h₁
        refine ⟨(.ok (rest.take buf.length), b₁) :: calls, ?_, ?_, ?_, ?_⟩
        · simp only [runReader, hread, hrun]
        · rw [List.map_cons, List.map_cons, readUnbuffered, if_pos hle, hdata]
        · intro i data b' hi
          cases i with
          | zero =>
              obtain ⟨-, rfl⟩ : rest.take buf.length = data ∧ b₁ = b' := by simpa using hi
              exact ⟨h₁.offset_le, h₁.length_le, by simpa using hcount⟩
          | succ i =>
              have hlater := hconsistent i data b' (by simpa using hi)
              rw [hcount, Nat.add_assoc] at hlater
              simpa using hlater
        · intro i code b' hi
          cases i with
          | zero => simp at hi
          | succ i =>
              have hlater := hfailed i code b' (by simpa using hi)
              rw [hcount, Nat.add_assoc] at hlater
              simpa using hlater
      · obtain ⟨b₁, hread, hcount⟩ := hufBufioRead_error h buf (Nat.lt_of_not_le hle)
        refine ⟨[(.error .readWrite, b₁)], ?_, ?_, ?_, ?_⟩
        · simp only [runReader, hread]
        · simp [readUnbuffered, hle]
        · intro i data b' hi
          cases i <;> simp at hi
        · intro i code b' hi
          cases i with
          | zero =>
              obtain ⟨-, rfl⟩ : HufError.readWrite = code ∧ b₁ = b' := by simpa using hi
              exact hcount
          | succ i => simp at hi

/-- A buffered reader of any capacity returns, call by call up to the first
failure, what unbuffered reads return, and after every successful call its
counter is the number of bytes delivered and its offsets are in order. Behind the
call that fails the counter is what it was. -/
theorem runReader_exact (src : Source ρ) (capacity : ℕ) (stream : ρ) (hvalid : src.valid stream)
    (bufs : List (List UInt8)) :
    ∃ calls, runReader bufs ⟨newBufio src.readWriter capacity, stream⟩ = .ok calls ∧
      calls.map (·.1) = readUnbuffered (bufs.map List.length) (src.remaining stream) ∧
      (∀ i data b', calls[i]? = some (.ok data, b') →
        Consistent b'.bufio ((bufs.map List.length).take (i + 1)).sum) ∧
      ∀ i code b', calls[i]? = some (.error code, b') →
        b'.bufio.haveBeenProcessed = ((bufs.map List.length).take i).sum := by
  obtain ⟨calls, hrun, hdata, hconsistent, hfailed⟩ :=
    runReader_of_reading bufs (reading_newBufio src capacity hvalid)
  have hzero : (newBufio src.readWriter capacity).haveBeenProcessed = 0 := rfl
  simp only [hzero, Nat.zero_add] at hconsistent hfailed
  exact ⟨calls, hrun, hdata, hconsistent, hfailed⟩

/-- Three requests for two of five bytes, through a buffer of three. -/
theorem runReader_exact_fifo : ∃ calls,
    runReader [[0, 0], [0, 0], [0, 0]] ⟨newBufio Fifo.readWriter 3, ⟨[1, 2, 3, 4, 5], 0⟩⟩ =
        .ok calls ∧
      calls.map (·.1) = [.ok [1, 2], .ok [3, 4], .error .readWrite] := by
  obtain ⟨calls, hrun, hdata, -⟩ := runReader_exact Fifo.source 3 ⟨[1, 2, 3, 4, 5], 0⟩ trivial
    [[0, 0], [0, 0], [0, 0]]
  exact ⟨calls, hrun, hdata⟩

end LibHuffman
