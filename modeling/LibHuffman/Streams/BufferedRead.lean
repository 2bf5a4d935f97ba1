/-
# One call of the buffered reader

What `huf_bufio_read` does over any stream, from a buffer whose offsets are in
order: the buffer serves the request, or it is used up and the stream either
fills the rest of the destination or refills the buffer. The stream is taken at
its word: the count it reports need not be the number of bytes it delivers.
-/

import LibHuffman.Streams.Contract
import Mathlib.Algebra.GroupWithZero.Nat

namespace LibHuffman

open Foundation

variable {ρ : Type}

/-- The part of the buffer that has not been delivered. -/
def HufBufioReadWriter.unread (self : HufBufioReadWriter ρ) : List UInt8 :=
  (self.bytes.take self.length).drop self.offset

/-! ## Where a buffer stands -/

/-- The capacity, the offset and the length of a buffer. -/
structure Gauge where
  capacity : ℕ
  offset : ℕ
  length : ℕ

namespace Gauge

/-- What a request of `len` bytes takes from the stream rather than the buffer. -/
def missing (g : Gauge) (len : ℕ) : ℕ := len - (g.length - g.offset)

/-- What a request of `len` bytes asks the stream for. -/
def asked (g : Gauge) (len : ℕ) : ℕ :=
  if g.capacity ≤ g.missing len then g.missing len else g.capacity

/-- Where the buffer stands after a request of `len` bytes, for which the stream
delivers `count`. -/
def after (g : Gauge) (len count : ℕ) : Gauge :=
  if g.missing len = 0 then { g with offset := g.offset + len }
  else if g.capacity ≤ g.missing len then { g with offset := 0, length := 0 }
  else if g.missing len ≤ count then { g with offset := g.missing len, length := count }
  else { g with offset := g.length, length := count }

/-- The offset and the length are in order. -/
def Ordered (g : Gauge) : Prop := g.offset ≤ g.length ∧ g.length ≤ g.capacity

/-- A refill that does not satisfy the request brings fewer bytes than the buffer
held before. -/
def Overshoots (g : Gauge) (len count : ℕ) : Prop :=
  g.missing len < g.capacity ∧ count < g.missing len ∧ count < g.length

variable {g : Gauge} {len count : ℕ}

theorem after_served (hserved : g.missing len = 0) :
    g.after len count = { g with offset := g.offset + len } := if_pos hserved

theorem after_direct (hmissing : g.missing len ≠ 0) (hdirect : g.capacity ≤ g.missing len) :
    g.after len count = { g with offset := 0, length := 0 } := by
  rw [after, if_neg hmissing, if_pos hdirect]

theorem after_refill (hmissing : g.missing len ≠ 0) (hrefill : g.missing len < g.capacity) :
    g.after len count = { g with
      offset := if g.missing len ≤ count then g.missing len else g.length
      length := count } := by
  rw [after, if_neg hmissing, if_neg (Nat.not_le.mpr hrefill)]
  split <;> rfl

theorem capacity_after : (g.after len count).capacity = g.capacity := by
  unfold after
  split
  · rfl
  · split
    · rfl
    · split <;> rfl

theorem missing_le_asked (g : Gauge) (len : ℕ) : g.missing len ≤ g.asked len := by
  rw [asked]
  split <;> omega

/-- A call leaves the offsets in order unless it overshoots: the refill sets the
length, and a call that fails does not set the offset. -/
theorem ordered_after_iff (h : g.Ordered) (hcount : count ≤ g.asked len) :
    (g.after len count).Ordered ↔ ¬ g.Overshoots len count := by
  obtain ⟨hoffset, hlength⟩ := h
  rw [Ordered, Overshoots]
  by_cases hserved : g.missing len = 0
  · have hle : len ≤ g.length - g.offset := Nat.le_of_sub_eq_zero hserved
    rw [after_served hserved]
    dsimp only
    omega
  by_cases hdirect : g.capacity ≤ g.missing len
  · rw [after_direct hserved hdirect]
    dsimp only
    omega
  · rw [asked, if_neg hdirect] at hcount
    rw [after_refill hserved (Nat.lt_of_not_le hdirect)]
    dsimp only
    split <;> omega

end Gauge

/-- Where a buffer stands. -/
def HufBufioReadWriter.gauge (self : HufBufioReadWriter ρ) : Gauge :=
  ⟨self.capacity, self.offset, self.length⟩

/-! ## The buffer's part of a call -/

/-- The offsets of a buffer are in order. -/
structure InOrder (bufio : HufBufioReadWriter ρ) : Prop where
  block : bufio.bytes.length = bufio.capacity
  offset_le : bufio.offset ≤ bufio.length
  length_le : bufio.length ≤ bufio.capacity

/-- What a request of `len` bytes takes from the stream rather than the buffer. -/
abbrev HufBufioReadWriter.missing (self : HufBufioReadWriter ρ) (len : ℕ) : ℕ :=
  self.gauge.missing len

theorem HufBufioReadWriter.missing_eq (self : HufBufioReadWriter ρ) (len : ℕ) :
    self.missing len = len - (self.length - self.offset) := rfl

/-- The buffer after `count` bytes of it have been delivered. -/
def HufBufioReadWriter.deliver (self : HufBufioReadWriter ρ) (count : ℕ) :
    HufBufioReadWriter ρ :=
  { self with offset := self.offset + count }

/-- The counter after a request of `len` bytes. -/
def HufBufioReadWriter.count (self : HufBufioReadWriter ρ) (len : ℕ) : HufBufioReadWriter ρ :=
  { self with haveBeenProcessed := self.haveBeenProcessed + len }

section

variable {b : Buffered ρ}

theorem InOrder.length_unread (h : InOrder b.bufio) :
    b.bufio.unread.length = b.bufio.length - b.bufio.offset := by
  have hblock := h.block
  have hlen := h.length_le
  simp only [HufBufioReadWriter.unread, List.length_drop, List.length_take]
  omega

/-- The first half of a read takes from the buffer, as much as there is and is
asked for. -/
theorem copyBuffered_eq (h : InOrder b.bufio) (len : ℕ) :
    copyBuffered len b = .ok (.ok (b.bufio.unread.take len),
      ⟨b.bufio.deliver (min len (b.bufio.length - b.bufio.offset)), b.stream⟩) := by
  have hunread := h.length_unread
  have hoffset := h.offset_le
  have hlength := h.length_le
  have hblock := h.block
  rw [copyBuffered, Routine.get_bind_apply, sizeSub_of_le hoffset]
  by_cases hcopy : b.bufio.length - b.bufio.offset > 0 ∧ len > 0
  · have hmin : (if b.bufio.length - b.bufio.offset > len then len
        else b.bufio.length - b.bufio.offset) = min len (b.bufio.length - b.bufio.offset) := by
      split <;> omega
    have hslice : slice b.bufio.bytes b.bufio.offset (min len (b.bufio.length - b.bufio.offset)) =
        .ok (b.bufio.unread.take len) := by
      rw [slice_of_le (by omega), HufBufioReadWriter.unread, List.drop_take, List.take_take]
    rw [if_pos hcopy, hmin, hslice, Routine.demand_ok_bind_apply]
    rfl
  · have hnone : b.bufio.unread.take len = [] := by
      rw [List.take_eq_nil_iff, ← List.length_eq_zero_iff]
      omega
    rw [if_neg hcopy, hnone, show min len (b.bufio.length - b.bufio.offset) = 0 by omega]
    rfl

/-- A request that the buffer can serve does not reach the stream. -/
theorem hufBufioRead_served (h : InOrder b.bufio) (buf : List UInt8)
    (hserved : buf.length ≤ b.bufio.length - b.bufio.offset) :
    hufBufioRead buf b = .ok (.ok (b.bufio.unread.take buf.length),
      ⟨(b.bufio.deliver buf.length).count buf.length, b.stream⟩) := by
  have hcopied : (b.bufio.unread.take buf.length).length = buf.length := by
    rw [List.length_take, h.length_unread, Nat.min_eq_left hserved]
  rw [hufBufioRead, Routine.bind_of_ok (copyBuffered_eq h buf.length), Nat.min_eq_left hserved,
    hcopied, List.drop_length, List.length_nil, if_pos rfl, Routine.pure_bind_apply]
  show Except.ok (Except.ok (b.bufio.unread.take buf.length ++ []), _) = _
  rw [List.append_nil]
  rfl

/-- Any other request uses the buffer up and goes on with the stream. -/
theorem hufBufioRead_missing (h : InOrder b.bufio) (buf : List UInt8)
    (hmissing : b.bufio.length - b.bufio.offset < buf.length) :
    hufBufioRead buf b =
      (readThrough (buf.drop (b.bufio.length - b.bufio.offset)) >>= fun read =>
        Routine.modify (Buffered.onBufio fun self => self.count buf.length) >>= fun _ =>
          (pure (b.bufio.unread ++ read) : CRoutine (Buffered ρ) (List UInt8)))
        ⟨{ b.bufio with offset := b.bufio.length }, b.stream⟩ := by
  have hall : b.bufio.unread.take buf.length = b.bufio.unread :=
    List.take_of_length_le (by rw [h.length_unread]; omega)
  have hdeliver : b.bufio.deliver (min buf.length (b.bufio.length - b.bufio.offset)) =
      { b.bufio with offset := b.bufio.length } := by
    have hoffset := h.offset_le
    rw [HufBufioReadWriter.deliver, Nat.min_eq_right (Nat.le_of_lt hmissing),
      Nat.add_sub_cancel' hoffset]
  rw [hufBufioRead, Routine.bind_of_ok (copyBuffered_eq h buf.length), hall, h.length_unread,
    if_neg (by rw [List.length_drop]; omega), hdeliver]
  rfl

end

/-! ## The stream's part of a call -/

section

variable {b : Buffered ρ} {data : List UInt8} {count : ℕ} {stream : ρ}

/-- A request that does not fit in the buffer is read to its destination. -/
theorem readThrough_direct (buf : List UInt8) (hdirect : b.bufio.capacity ≤ buf.length)
    (hread : b.bufio.readWriter.read buf.length b.stream = .ok (⟨none, data, count⟩, stream))
    (hdata : data.length ≤ buf.length) :
    readThrough buf b =
      .ok (if count < buf.length then .error .readWrite
        else .ok (data ++ buf.drop data.length),
        ⟨{ b.bufio with length := 0, offset := 0 }, stream⟩) := by
  have hunderlying : readUnderlying buf.length b =
      .ok (.ok ⟨none, data, count⟩, { b with stream }) := by
    simp only [readUnderlying, hread]
  have hcopy : 0 + data.length ≤ buf.length := by omega
  rw [readThrough, Routine.get_bind_apply, if_pos hdirect, Routine.bind_of_ok hunderlying]
  simp only [ReadResult.raise, Routine.pure_bind_apply, memcpy_of_le hcopy,
    Routine.demand_ok_bind_apply, Routine.modify_bind_apply, List.take_zero, List.nil_append,
    Nat.zero_add]
  split <;> rfl

/-- Any other request refills the buffer and is served from there. -/
theorem readThrough_refill (hblock : b.bufio.bytes.length = b.bufio.capacity) (buf : List UInt8)
    (hrefill : buf.length < b.bufio.capacity)
    (hread : b.bufio.readWriter.read b.bufio.capacity b.stream =
      .ok (⟨none, data, count⟩, stream))
    (hdata : data.length ≤ b.bufio.capacity) :
    readThrough buf b =
      .ok (if count < buf.length then
          (.error .readWrite, ⟨{ b.bufio with
            bytes := data ++ b.bufio.bytes.drop data.length
            length := count }, stream⟩)
        else
          (.ok ((data ++ b.bufio.bytes.drop data.length).take buf.length), ⟨{ b.bufio with
            bytes := data ++ b.bufio.bytes.drop data.length
            length := count
            offset := buf.length }, stream⟩)) := by
  have hunderlying : readUnderlying b.bufio.capacity b =
      .ok (.ok ⟨none, data, count⟩, { b with stream }) := by
    simp only [readUnderlying, hread]
  have hcopy : 0 + data.length ≤ b.bufio.bytes.length := by omega
  have hslice : slice (data ++ b.bufio.bytes.drop data.length) 0 buf.length =
      .ok ((data ++ b.bufio.bytes.drop data.length).take buf.length) := by
    rw [slice_of_le (by rw [List.length_append, List.length_drop]; omega), List.drop_zero]
  rw [readThrough, Routine.get_bind_apply, if_neg (by omega), Routine.bind_of_ok hunderlying]
  simp only [memcpy_of_le hcopy, ReadResult.raise, Routine.pure_bind_apply,
    Routine.demand_ok_bind_apply, Routine.modify_bind_apply, List.take_zero, List.nil_append,
    Nat.zero_add, hslice]
  split <;> rfl

end

/-! ## The ways a call ends -/

section

variable {b : Buffered ρ} {buf data : List UInt8} {count : ℕ} {stream : ρ}

theorem hufBufioRead_direct_ok (h : InOrder b.bufio)
    (hmissing : 0 < b.bufio.missing buf.length)
    (hdirect : b.bufio.capacity ≤ b.bufio.missing buf.length)
    (hread : b.bufio.readWriter.read (b.bufio.missing buf.length) b.stream =
      .ok (⟨none, data, count⟩, stream))
    (hdata : data.length ≤ b.bufio.missing buf.length)
    (hcount : b.bufio.missing buf.length ≤ count) :
    hufBufioRead buf b =
      .ok (.ok (b.bufio.unread ++
          (data ++ (buf.drop (b.bufio.length - b.bufio.offset)).drop data.length)),
        ⟨{ b.bufio with length := 0, offset := 0 }.count buf.length, stream⟩) := by
  have hrest : (buf.drop (b.bufio.length - b.bufio.offset)).length = b.bufio.missing buf.length :=
    List.length_drop
  rw [← hrest] at hdirect hread hdata hcount
  have hthrough := readThrough_direct
    (b := ⟨{ b.bufio with offset := b.bufio.length }, b.stream⟩)
    (buf.drop (b.bufio.length - b.bufio.offset)) hdirect hread hdata
  rw [if_neg (Nat.not_lt.mpr hcount)] at hthrough
  rw [hufBufioRead_missing h buf (Nat.lt_of_sub_pos hmissing), Routine.bind_of_ok hthrough]
  rfl

theorem hufBufioRead_direct_error (h : InOrder b.bufio)
    (hdirect : b.bufio.capacity ≤ b.bufio.missing buf.length)
    (hread : b.bufio.readWriter.read (b.bufio.missing buf.length) b.stream =
      .ok (⟨none, data, count⟩, stream))
    (hdata : data.length ≤ b.bufio.missing buf.length)
    (hcount : count < b.bufio.missing buf.length) :
    hufBufioRead buf b =
      .ok (.error .readWrite, ⟨{ b.bufio with length := 0, offset := 0 }, stream⟩) := by
  have hrest : (buf.drop (b.bufio.length - b.bufio.offset)).length = b.bufio.missing buf.length :=
    List.length_drop
  have hmissing : 0 < b.bufio.missing buf.length := Nat.zero_lt_of_lt hcount
  rw [← hrest] at hdirect hread hdata hcount
  have hthrough := readThrough_direct
    (b := ⟨{ b.bufio with offset := b.bufio.length }, b.stream⟩)
    (buf.drop (b.bufio.length - b.bufio.offset)) hdirect hread hdata
  rw [if_pos hcount] at hthrough
  rw [hufBufioRead_missing h buf (Nat.lt_of_sub_pos hmissing), Routine.bind_of_error hthrough]

theorem hufBufioRead_refill_ok (h : InOrder b.bufio)
    (hmissing : 0 < b.bufio.missing buf.length)
    (hrefill : b.bufio.missing buf.length < b.bufio.capacity)
    (hread : b.bufio.readWriter.read b.bufio.capacity b.stream =
      .ok (⟨none, data, count⟩, stream))
    (hdata : data.length ≤ b.bufio.capacity)
    (hcount : b.bufio.missing buf.length ≤ count) :
    hufBufioRead buf b =
      .ok (.ok (b.bufio.unread ++ (data ++ b.bufio.bytes.drop data.length).take
          (b.bufio.missing buf.length)),
        ⟨{ b.bufio with
            bytes := data ++ b.bufio.bytes.drop data.length
            length := count
            offset := b.bufio.missing buf.length }.count buf.length, stream⟩) := by
  have hrest : (buf.drop (b.bufio.length - b.bufio.offset)).length = b.bufio.missing buf.length :=
    List.length_drop
  have hthrough := readThrough_refill
    (b := ⟨{ b.bufio with offset := b.bufio.length }, b.stream⟩) h.block
    (buf.drop (b.bufio.length - b.bufio.offset)) (hrest ▸ hrefill) hread hdata
  rw [hrest, if_neg (Nat.not_lt.mpr hcount)] at hthrough
  rw [hufBufioRead_missing h buf (Nat.lt_of_sub_pos hmissing), Routine.bind_of_ok hthrough]
  rfl

theorem hufBufioRead_refill_error (h : InOrder b.bufio)
    (hrefill : b.bufio.missing buf.length < b.bufio.capacity)
    (hread : b.bufio.readWriter.read b.bufio.capacity b.stream =
      .ok (⟨none, data, count⟩, stream))
    (hdata : data.length ≤ b.bufio.capacity)
    (hcount : count < b.bufio.missing buf.length) :
    hufBufioRead buf b =
      .ok (.error .readWrite,
        ⟨{ b.bufio with
            bytes := data ++ b.bufio.bytes.drop data.length
            length := count
            offset := b.bufio.length }, stream⟩) := by
  have hrest : (buf.drop (b.bufio.length - b.bufio.offset)).length = b.bufio.missing buf.length :=
    List.length_drop
  have hmissing : 0 < b.bufio.missing buf.length := Nat.zero_lt_of_lt hcount
  have hthrough := readThrough_refill
    (b := ⟨{ b.bufio with offset := b.bufio.length }, b.stream⟩) h.block
    (buf.drop (b.bufio.length - b.bufio.offset)) (hrest ▸ hrefill) hread hdata
  rw [hrest, if_pos hcount] at hthrough
  rw [hufBufioRead_missing h buf (Nat.lt_of_sub_pos hmissing), Routine.bind_of_error hthrough]

end

/-! ## The step of a call -/

/-- How a call ends for which the stream delivers `supplied`. The offsets move as
the gauge does, and the stream is asked only if the buffer does not suffice. Of
the bytes at hand the call takes the first; it returns them as they were asked
for and counts them or, with an error, loses them. -/
structure ReadStep (b : Buffered ρ) (len : ℕ) (supplied : List UInt8) (stream : ρ)
    (result : Except HufError (List UInt8)) (b' : Buffered ρ) : Prop where
  gauge : b'.bufio.gauge = b.bufio.gauge.after len supplied.length
  block : b'.bufio.bytes.length = b'.bufio.capacity
  readWriter : b'.bufio.readWriter = b.bufio.readWriter
  stream : b'.stream = if b.bufio.missing len = 0 then b.stream else stream
  taken : ∃ taken, taken ++ b'.bufio.unread =
      b.bufio.unread ++ (if b.bufio.missing len = 0 then [] else supplied) ∧
    (result = .ok taken ∧ taken.length = len ∧
        b'.bufio.haveBeenProcessed = b.bufio.haveBeenProcessed + len ∨
      result = .error .readWrite ∧ supplied.length < b.bufio.missing len ∧
        b'.bufio.haveBeenProcessed = b.bufio.haveBeenProcessed)

section

variable {b : Buffered ρ} {buf supplied : List UInt8} {stream : ρ}

/-- A call that succeeds leaves the offsets in order. -/
theorem ReadStep.ordered_of_ok {len : ℕ} {data : List UInt8} {b' : Buffered ρ}
    {result : Except HufError (List UInt8)} (hstep : ReadStep b len supplied stream result b')
    (h : InOrder b.bufio) (hsupplied : supplied.length ≤ b.bufio.gauge.asked len)
    (hok : result = .ok data) : b'.bufio.gauge.Ordered := by
  rw [hstep.gauge, Gauge.ordered_after_iff ⟨h.offset_le, h.length_le⟩ hsupplied]
  intro hover
  rcases hover with ⟨-, hfew, -⟩
  have hmissing : b.bufio.missing len ≠ 0 := Nat.ne_of_gt (Nat.zero_lt_of_lt hfew)
  rcases hstep.taken with ⟨taken, hsplit, ⟨-, hlength, -⟩ | ⟨herror, -⟩⟩
  · have htotal := congrArg List.length hsplit
    have hfew' : supplied.length < len - (b.bufio.length - b.bufio.offset) := hfew
    rw [if_neg hmissing, List.length_append, List.length_append, h.length_unread] at htotal
    omega
  · rw [herror] at hok
    cases hok

/-- A call that the buffer serves alone. -/
theorem ReadStep.served (h : InOrder b.bufio) (hserved : b.bufio.missing buf.length = 0) :
    ReadStep b buf.length supplied stream (.ok (b.bufio.unread.take buf.length))
      ⟨(b.bufio.deliver buf.length).count buf.length, b.stream⟩ := by
  have hle : buf.length ≤ b.bufio.length - b.bufio.offset := Nat.le_of_sub_eq_zero hserved
  refine ⟨?_, h.block, rfl, (if_pos hserved).symm, ?_⟩
  · exact (Gauge.after_served hserved).symm
  · refine ⟨b.bufio.unread.take buf.length, ?_, Or.inl ⟨rfl, ?_, rfl⟩⟩
    · show b.bufio.unread.take buf.length ++
        (b.bufio.bytes.take b.bufio.length).drop (b.bufio.offset + buf.length) = _
      rw [if_pos hserved, ← List.drop_drop, List.append_nil]
      exact List.take_append_drop _ _
    · rw [List.length_take, h.length_unread, Nat.min_eq_left hle]

/-- A call whose destination the stream fills. -/
theorem ReadStep.direct_ok (h : InOrder b.bufio) (hmissing : 0 < b.bufio.missing buf.length)
    (hdirect : b.bufio.capacity ≤ b.bufio.missing buf.length)
    (hsupplied : supplied.length = b.bufio.missing buf.length) :
    ReadStep b buf.length supplied stream (.ok (b.bufio.unread ++
        (supplied ++ (buf.drop (b.bufio.length - b.bufio.offset)).drop supplied.length)))
      ⟨{ b.bufio with length := 0, offset := 0 }.count buf.length, stream⟩ := by
  have hne : b.bufio.missing buf.length ≠ 0 := Nat.ne_of_gt hmissing
  have hnone : (buf.drop (b.bufio.length - b.bufio.offset)).drop supplied.length = [] := by
    rw [hsupplied, List.drop_eq_nil_iff, List.length_drop]
    exact Nat.le_refl _
  refine ⟨?_, h.block, rfl, (if_neg hne).symm, ?_⟩
  · exact (Gauge.after_direct hne hdirect).symm
  · refine ⟨_, ?_, Or.inl ⟨rfl, ?_, rfl⟩⟩
    · show _ ++ (b.bufio.bytes.take 0).drop 0 = _
      rw [hnone, if_neg hne]
      simp
    · have hlen := b.bufio.missing_eq buf.length
      rw [hnone, List.append_nil, List.length_append, h.length_unread]
      omega

/-- A call that reads to its destination and gets too little. -/
theorem ReadStep.direct_error (h : InOrder b.bufio)
    (hdirect : b.bufio.capacity ≤ b.bufio.missing buf.length)
    (hsupplied : supplied.length < b.bufio.missing buf.length) :
    ReadStep b buf.length supplied stream (.error .readWrite)
      ⟨{ b.bufio with length := 0, offset := 0 }, stream⟩ := by
  have hne : b.bufio.missing buf.length ≠ 0 := Nat.ne_of_gt (Nat.zero_lt_of_lt hsupplied)
  refine ⟨?_, h.block, rfl, (if_neg hne).symm, ?_⟩
  · exact (Gauge.after_direct hne hdirect).symm
  · refine ⟨b.bufio.unread ++ supplied, ?_, Or.inr ⟨rfl, hsupplied, rfl⟩⟩
    show _ ++ (b.bufio.bytes.take 0).drop 0 = _
    rw [if_neg hne]
    simp

/-- A call that a refill satisfies. -/
theorem ReadStep.refill_ok (h : InOrder b.bufio) (hmissing : 0 < b.bufio.missing buf.length)
    (hrefill : b.bufio.missing buf.length < b.bufio.capacity)
    (hsupplied : supplied.length ≤ b.bufio.capacity)
    (henough : b.bufio.missing buf.length ≤ supplied.length) :
    ReadStep b buf.length supplied stream
      (.ok (b.bufio.unread ++ (supplied ++ b.bufio.bytes.drop supplied.length).take
        (b.bufio.missing buf.length)))
      ⟨{ b.bufio with
          bytes := supplied ++ b.bufio.bytes.drop supplied.length
          length := supplied.length
          offset := b.bufio.missing buf.length }.count buf.length, stream⟩ := by
  have hne : b.bufio.missing buf.length ≠ 0 := Nat.ne_of_gt hmissing
  have hblock := h.block
  have hlen := b.bufio.missing_eq buf.length
  refine ⟨?_, ?_, rfl, (if_neg hne).symm, ?_⟩
  · rw [Gauge.after_refill hne hrefill, if_pos henough]
    rfl
  · show (supplied ++ b.bufio.bytes.drop supplied.length).length = b.bufio.capacity
    rw [List.length_append, List.length_drop]
    omega
  · rw [List.take_append_of_le_length henough]
    refine ⟨_, ?_, Or.inl ⟨rfl, ?_, rfl⟩⟩
    · show _ ++ ((supplied ++ b.bufio.bytes.drop supplied.length).take supplied.length).drop
        (b.bufio.missing buf.length) = _
      rw [List.take_left, List.append_assoc, List.take_append_drop, if_neg hne]
    · rw [List.length_append, h.length_unread, List.length_take, Nat.min_eq_left henough]
      omega

/-- A call that a refill does not satisfy. -/
theorem ReadStep.refill_error (h : InOrder b.bufio)
    (hrefill : b.bufio.missing buf.length < b.bufio.capacity)
    (hsupplied : supplied.length < b.bufio.missing buf.length) :
    ReadStep b buf.length supplied stream (.error .readWrite)
      ⟨{ b.bufio with
          bytes := supplied ++ b.bufio.bytes.drop supplied.length
          length := supplied.length
          offset := b.bufio.length }, stream⟩ := by
  have hne : b.bufio.missing buf.length ≠ 0 := Nat.ne_of_gt (Nat.zero_lt_of_lt hsupplied)
  have hblock := h.block
  refine ⟨?_, ?_, rfl, (if_neg hne).symm, ?_⟩
  · rw [Gauge.after_refill hne hrefill, if_neg (Nat.not_le.mpr hsupplied)]
    rfl
  · show (supplied ++ b.bufio.bytes.drop supplied.length).length = b.bufio.capacity
    rw [List.length_append, List.length_drop]
    omega
  · refine ⟨b.bufio.unread ++ supplied.take b.bufio.length, ?_, Or.inr ⟨rfl, hsupplied, rfl⟩⟩
    show _ ++ ((supplied ++ b.bufio.bytes.drop supplied.length).take supplied.length).drop
      b.bufio.length = _
    rw [List.take_left, List.append_assoc, List.take_append_drop, if_neg hne]

/-- A call over a stream that delivers what it counts, and no more than it is
asked for. -/
theorem hufBufioRead_step (h : InOrder b.bufio) (buf : List UInt8)
    (hsupplied : supplied.length ≤ b.bufio.gauge.asked buf.length)
    (hread : 0 < b.bufio.missing buf.length →
      b.bufio.readWriter.read (b.bufio.gauge.asked buf.length) b.stream =
        .ok (⟨none, supplied, supplied.length⟩, stream)) :
    ∃ result b', hufBufioRead buf b = .ok (result, b') ∧
      ReadStep b buf.length supplied stream result b' := by
  rcases Nat.eq_zero_or_pos (b.bufio.missing buf.length) with hserved | hmissing
  · exact ⟨_, _, hufBufioRead_served h buf (Nat.le_of_sub_eq_zero hserved), .served h hserved⟩
  have hread := hread hmissing
  by_cases hdirect : b.bufio.gauge.capacity ≤ b.bufio.missing buf.length
  · rw [Gauge.asked, if_pos hdirect] at hsupplied hread
    rcases Nat.lt_or_ge supplied.length (b.bufio.missing buf.length) with hlt | hge
    · exact ⟨_, _, hufBufioRead_direct_error h hdirect hread hsupplied hlt,
        .direct_error h hdirect hlt⟩
    · exact ⟨_, _, hufBufioRead_direct_ok h hmissing hdirect hread hsupplied hge,
        .direct_ok h hmissing hdirect (Nat.le_antisymm hsupplied hge)⟩
  · rw [Gauge.asked, if_neg hdirect] at hsupplied hread
    have hrefill := Nat.lt_of_not_le hdirect
    rcases Nat.lt_or_ge supplied.length (b.bufio.missing buf.length) with hlt | hge
    · exact ⟨_, _, hufBufioRead_refill_error h hrefill hread hsupplied hlt,
        .refill_error h hrefill hlt⟩
    · exact ⟨_, _, hufBufioRead_refill_ok h hmissing hrefill hread hsupplied hge,
        .refill_ok h hmissing hrefill hsupplied hge⟩

end

/-! ## What a request returns -/

section

variable {σ : Type}

theorem length_copyBuffered {len : ℕ} {b b' : Buffered σ} {data : List UInt8}
    (h : copyBuffered len b = .ok (.ok data, b')) : data.length ≤ len := by
  rw [copyBuffered, Routine.get_bind_apply] at h
  split at h
  · rcases Routine.bind_eq_ok h with ⟨copied, s, hdemand, hrest⟩
    cases hrest
    have := length_slice (Routine.demand_eq_ok hdemand)
    rw [this]
    split <;> omega
  · cases h
    exact Nat.zero_le _

theorem length_readThrough {buf data : List UInt8} {b b' : Buffered σ}
    (h : readThrough buf b = .ok (.ok data, b')) : data.length = buf.length := by
  rw [readThrough, Routine.get_bind_apply] at h
  split at h
  · rcases Routine.bind_eq_ok h with ⟨result, s₁, -, h⟩
    rcases Routine.bind_eq_ok h with ⟨_, s₂, -, h⟩
    rcases Routine.bind_eq_ok h with ⟨buf', s₃, hcopy, h⟩
    rw [Routine.modify_bind_apply] at h
    split at h
    · cases h
    · cases h
      exact length_memcpy (Routine.demand_eq_ok hcopy)
  · rcases Routine.bind_eq_ok h with ⟨result, s₁, -, h⟩
    rcases Routine.bind_eq_ok h with ⟨bytes, s₂, -, h⟩
    rw [Routine.modify_bind_apply] at h
    rcases Routine.bind_eq_ok h with ⟨_, s₃, -, h⟩
    split at h
    · cases h
    · rcases Routine.bind_eq_ok h with ⟨buf', s₄, hslice, h⟩
      cases h
      exact length_slice (Routine.demand_eq_ok hslice)

/-- What a request returns is as long as the request. -/
theorem length_hufBufioRead {buf data : List UInt8} {b b' : Buffered σ}
    (h : hufBufioRead buf b = .ok (.ok data, b')) : data.length = buf.length := by
  rcases Routine.bind_eq_ok h with ⟨copied, s₁, hcopy, h⟩
  have hlen := length_copyBuffered hcopy
  dsimp only at h
  split at h
  · cases h
    rename_i hrest
    rw [List.length_drop] at hrest
    rw [List.append_nil]
    omega
  · rcases Routine.bind_eq_ok h with ⟨read, s₂, hread, h⟩
    cases h
    rw [List.length_append, length_readThrough hread, List.length_drop]
    omega

end

end LibHuffman
