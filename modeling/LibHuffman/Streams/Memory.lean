/-
# The in-memory stream

A run of `memwrite`, `memread` and `huf_memrewind` is compared with the same run
of the ideal stream. The two agree as long as every growth of the block makes
room for the write that asked for it. The new capacity is chosen from the old
one and the size of the write, without a look at how much is stored already, so
this is a condition on the run and not a fact: `GrowthFits`.
-/

import LibHuffman.Streams.Contract

namespace LibHuffman

open Foundation

/-! ## One call -/

/-- A stream that `huf_memopen` creates. -/
def newMemStream (capacity : ℕ) : MemStream := ⟨⟨List.replicate capacity 0, 0, 0, capacity⟩, []⟩

theorem hufMemopen_eq (capacity : ℕ) :
    hufMemopen capacity [] = .ok (.ok (newMemStream capacity).mem, []) := rfl

/-- An in-memory stream in the state of an ideal one. -/
structure Stores (s : MemStream) (fifo : Fifo) : Prop where
  block : s.mem.buf.length = s.mem.cap
  len_le : s.mem.len ≤ s.mem.cap
  stored : s.mem.buf.take s.mem.len = fifo.stored
  off : s.mem.off = fifo.off
  off_le : fifo.off ≤ fifo.stored.length
  allocations : s.allocations = []

section

variable {s : MemStream} {fifo : Fifo}

theorem Stores.len (h : Stores s fifo) : fifo.stored.length = s.mem.len := by
  have hblock := h.block
  have hlen := h.len_le
  simp only [← h.stored, List.length_take]
  omega

theorem stores_newMemStream (capacity : ℕ) : Stores (newMemStream capacity) Fifo.empty where
  block := List.length_replicate
  len_le := Nat.zero_le _
  stored := List.take_zero
  off := rfl
  off_le := Nat.le_refl 0
  allocations := rfl

/-- A write that fits in the block appends and keeps the capacity. -/
theorem memwrite_fits (h : Stores s fifo) {buf : List UInt8}
    (hfit : s.mem.len + buf.length ≤ s.mem.cap) :
    ∃ s', memwrite buf s = .ok (.ok (), s') ∧ Stores s' (fifo.write buf) ∧
      s'.mem.len = s.mem.len + buf.length ∧ s'.mem.cap = s.mem.cap := by
  have hblock := h.block
  have htake : (s.mem.buf.take s.mem.len ++ buf).length = s.mem.len + buf.length := by
    simp only [List.length_append, List.length_take]
    omega
  rw [memwrite, Routine.get_bind_apply]
  rw [if_pos hfit, memcpy_of_le (by omega), Routine.demand_ok_bind_apply]
  refine ⟨_, rfl, ⟨?_, hfit, ?_, h.off, ?_, h.allocations⟩, rfl, rfl⟩
  · show (s.mem.buf.take s.mem.len ++ buf ++ s.mem.buf.drop (s.mem.len + buf.length)).length =
      s.mem.cap
    simp only [List.length_append, htake, List.length_drop]
    omega
  · show (s.mem.buf.take s.mem.len ++ buf ++ s.mem.buf.drop (s.mem.len + buf.length)).take
      (s.mem.len + buf.length) = fifo.stored ++ buf
    rw [List.take_left' htake, h.stored]
  · show fifo.off ≤ (fifo.stored ++ buf).length
    have := h.off_le
    simp only [List.length_append]
    omega

/-- A grown block has room behind `len` stored bytes in these cases. -/
theorem le_grownCapacity_iff {cap len : ℕ} (hlen : len ≤ cap) (count : ℕ) :
    len + count ≤ grownCapacity cap count ↔ cap * 2 < count ∨ len + count ≤ cap * 2 := by
  rw [grownCapacity]
  split <;> omega

/-- A write that does not fit moves the stored bytes to a larger block, for which
there is always room, and then copies its argument behind them. -/
theorem memwrite_moves (h : Stores s fifo) {buf : List UInt8}
    (hfull : s.mem.cap < s.mem.len + buf.length) :
    memwrite buf s =
      (Routine.demand (memcpy (fifo.stored ++
          List.replicate (grownCapacity s.mem.cap buf.length - s.mem.len) 0) s.mem.len buf) >>=
        fun newbuf => (Routine.modify fun s' : MemStream =>
          { s' with mem := ⟨newbuf, s.mem.off, s.mem.len + buf.length,
              grownCapacity s.mem.cap buf.length⟩ } : CRoutine MemStream Unit)) s := by
  have hblock := h.block
  have hlen := h.len_le
  have hroom : s.mem.len ≤ grownCapacity s.mem.cap buf.length := by
    rw [grownCapacity]
    split <;> omega
  have hmalloc : Routine.within MemStream.allocator hufMalloc s =
      (.ok (.ok (), s) : Outcome Fault HufError MemStream Unit) := by
    have hrun : hufMalloc s.allocations = .ok (.ok (), s.allocations) := by
      rw [h.allocations]
      rfl
    exact Routine.within_of_ok rfl hrun
  have hwritten : slice s.mem.buf 0 s.mem.len = .ok fifo.stored := by
    rw [slice_of_le (by omega), List.drop_zero, h.stored]
  have hmove : memcpy (List.replicate (grownCapacity s.mem.cap buf.length) (0 : UInt8)) 0
      fifo.stored = .ok (fifo.stored ++
        List.replicate (grownCapacity s.mem.cap buf.length - s.mem.len) 0) := by
    rw [memcpy_of_le (by rw [List.length_replicate, Nat.zero_add, h.len]; exact hroom),
      List.take_zero, List.nil_append, Nat.zero_add, List.drop_replicate, h.len]
  rw [memwrite, Routine.get_bind_apply, if_neg (by omega), Routine.bind_of_ok hmalloc, hwritten,
    Routine.demand_ok_bind_apply, hmove, Routine.demand_ok_bind_apply]

theorem memwrite_grows (h : Stores s fifo) {buf : List UInt8}
    (hfull : s.mem.cap < s.mem.len + buf.length)
    (hroom : s.mem.len + buf.length ≤ grownCapacity s.mem.cap buf.length) :
    ∃ s', memwrite buf s = .ok (.ok (), s') ∧ Stores s' (fifo.write buf) ∧
      s'.mem.len = s.mem.len + buf.length ∧
      s'.mem.cap = grownCapacity s.mem.cap buf.length := by
  have hstored := h.len
  have hlen : (fifo.stored ++ buf).length = s.mem.len + buf.length := by
    simp [hstored]
  rw [memwrite_moves h hfull, memcpy_of_le (by
    rw [List.length_append, List.length_replicate, hstored]; omega), Routine.demand_ok_bind_apply,
    List.take_left' hstored]
  refine ⟨_, rfl, ⟨?_, hroom, List.take_left' hlen, h.off, ?_, h.allocations⟩, rfl, rfl⟩
  · show (fifo.stored ++ buf ++ List.drop _ _).length = grownCapacity s.mem.cap buf.length
    rw [List.length_append, hlen, List.length_drop, List.length_append, List.length_replicate,
      hstored]
    omega
  · show fifo.off ≤ (fifo.stored ++ buf).length
    have := h.off_le
    simp only [List.length_append]
    omega

/-- A growth that does not make room is not noticed: the copy runs past the
block. -/
theorem memwrite_overruns (h : Stores s fifo) {buf : List UInt8}
    (hfull : s.mem.cap < s.mem.len + buf.length)
    (hroom : grownCapacity s.mem.cap buf.length < s.mem.len + buf.length) :
    memwrite buf s = .error .outOfBounds := by
  have hmoved : s.mem.len ≤ grownCapacity s.mem.cap buf.length := by
    have := h.len_le
    rw [grownCapacity]
    split <;> omega
  rw [memwrite_moves h hfull, memcpy_of_lt (by
    simp [h.len]; omega), Routine.demand_error_bind_apply]

/-- A read delivers the next bytes of the stream, as many as are asked for or
left. -/
theorem memread_eq (h : Stores s fifo) (count : ℕ) :
    ∃ s', memread count s =
        .ok (⟨none, fifo.unread.take count, min count fifo.unread.length⟩, s') ∧
      Stores s' (fifo.advance count) ∧ s'.mem.len = s.mem.len ∧ s'.mem.cap = s.mem.cap := by
  have hblock := h.block
  have hlen := h.len_le
  have hoff := h.off_le
  have hstored := h.len
  have hunread : fifo.unread.length = s.mem.len - s.mem.off := by
    simp [Fifo.unread, hstored, h.off]
  have hadvance : Stores { s with mem := { s.mem with
      off := s.mem.off + min count fifo.unread.length } } (fifo.advance count) := by
    refine ⟨hblock, hlen, h.stored, ?_, ?_, h.allocations⟩
    · rw [Fifo.advance, ← h.off]
    · show fifo.off + min count fifo.unread.length ≤ fifo.stored.length
      simp only [Fifo.unread, List.length_drop]
      omega
  have hcopy : (if count > sizeSub s.mem.len s.mem.off then sizeSub s.mem.len s.mem.off
      else count) = min count fifo.unread.length := by
    rw [sizeSub_of_le (by rw [← hstored, h.off]; exact hoff), hunread]
    split <;> omega
  rw [memread]
  simp only [hcopy]
  by_cases hpos : min count fifo.unread.length > 0
  · have hslice : slice s.mem.buf s.mem.off (min count fifo.unread.length) =
        .ok (fifo.unread.take count) := by
      rw [slice_of_le (by omega), hunread, Fifo.unread, ← h.stored, ← h.off, List.drop_take,
        List.take_take]
    rw [if_pos hpos, hslice]
    exact ⟨_, rfl, hadvance, rfl, rfl⟩
  · have hzero : min count fifo.unread.length = 0 := by omega
    have hnone : fifo.unread.take count = [] := by
      rw [← List.length_eq_zero_iff, List.length_take]
      exact hzero
    rw [hzero] at hadvance ⊢
    rw [if_neg (by omega), hnone]
    exact ⟨s, rfl, hadvance, rfl, rfl⟩

theorem hufMemrewind_eq (h : Stores s fifo) :
    ∃ s', hufMemrewind s = .ok (.ok (), s') ∧ Stores s' Fifo.empty ∧
      s'.mem.len = 0 ∧ s'.mem.cap = s.mem.cap :=
  ⟨_, rfl, ⟨h.block, Nat.zero_le _, List.take_zero, rfl, Nat.le_refl 0, h.allocations⟩, rfl, rfl⟩

end

/-! ## Whole runs -/

/-- A call of the in-memory stream. -/
inductive MemCall
  | write (buf : List UInt8)
  | read (count : ℕ)
  | rewind

/-- The function a call stands for. A read reports what it delivered. -/
def MemCall.run : MemCall → CRoutine MemStream (Option ReadResult)
  | .write buf => do
    memwrite buf
    return none
  | .read count => fun s =>
    match memread count s with
    | .error fault => .error fault
    | .ok (result, s') => .ok (.ok (some result), s')
  | .rewind => do
    hufMemrewind
    return none

/-- The same call of the ideal stream. -/
def MemCall.runFifo : MemCall → Fifo → Option ReadResult × Fifo
  | .write buf, fifo => (none, fifo.write buf)
  | .read count, fifo =>
    (some ⟨none, fifo.unread.take count, min count fifo.unread.length⟩, fifo.advance count)
  | .rewind, _ => (none, Fifo.empty)

/-- Make the calls one after the other. -/
def runMemory : List MemCall → CRoutine MemStream (List (Option ReadResult))
  | [] => pure []
  | call :: calls => do
    let reply ← call.run
    return reply :: (← runMemory calls)

/-- Make the calls on the ideal stream. -/
def runFifo : List MemCall → Fifo → List (Option ReadResult) × Fifo
  | [], fifo => ([], fifo)
  | call :: calls, fifo =>
    let (reply, fifo') := call.runFifo fifo
    let (replies, fifo'') := runFifo calls fifo'
    (reply :: replies, fifo'')

/-- A write either fits in a block twice as large, together with the `len` bytes
that are stored, or is more than twice as long as the block of `cap` bytes. -/
def MemCall.Fits (cap len : ℕ) : MemCall → Prop
  | .write buf => cap * 2 < buf.length ∨ len + buf.length ≤ cap * 2
  | .read _ => True
  | .rewind => True

/-- The number of stored bytes after a call. -/
def MemCall.lenAfter (len : ℕ) : MemCall → ℕ
  | .write buf => len + buf.length
  | .read _ => len
  | .rewind => 0

/-- The size of the block after a call. -/
def MemCall.capAfter (cap len : ℕ) : MemCall → ℕ
  | .write buf =>
    if len + buf.length ≤ cap then cap
    else if cap * 2 < buf.length then buf.length * 2
    else cap * 2
  | .read _ => cap
  | .rewind => cap

/-- Every call of a run fits, where the run starts with `len` stored bytes in a
block of `cap` bytes. -/
def GrowthFits : ℕ → ℕ → List MemCall → Prop
  | _, _, [] => True
  | cap, len, call :: calls =>
    call.Fits cap len ∧ GrowthFits (call.capAfter cap len) (call.lenAfter len) calls

/-- A run leaves the stream as it should: nothing was copied outside of the
block, the offsets are in order, and the stored bytes and every reply are those
of the ideal stream. -/
def MemoryExact (capacity : ℕ) (calls : List MemCall) : Prop :=
  ∃ s, runMemory calls (newMemStream capacity) =
      .ok (.ok (runFifo calls Fifo.empty).1, s) ∧
    s.mem.off ≤ s.mem.len ∧ s.mem.len ≤ s.mem.cap ∧ s.mem.cap = s.mem.buf.length ∧
    s.mem.buf.take s.mem.len = (runFifo calls Fifo.empty).2.stored

section

variable {s : MemStream} {fifo : Fifo}

/-- A call that fits is the call of the ideal stream. -/
theorem MemCall.run_of_fits (h : Stores s fifo) (call : MemCall)
    (hfits : call.Fits s.mem.cap s.mem.len) :
    ∃ s', call.run s = .ok (.ok (call.runFifo fifo).1, s') ∧ Stores s' (call.runFifo fifo).2 ∧
      s'.mem.len = call.lenAfter s.mem.len ∧ s'.mem.cap = call.capAfter s.mem.cap s.mem.len := by
  cases call with
  | write buf =>
      have hwrite : ∃ s', memwrite buf s = .ok (.ok (), s') ∧ Stores s' (fifo.write buf) ∧
          s'.mem.len = s.mem.len + buf.length ∧
          s'.mem.cap = MemCall.capAfter s.mem.cap s.mem.len (.write buf) := by
        rw [MemCall.capAfter]
        split
        · exact memwrite_fits h ‹_›
        · exact memwrite_grows h (by omega) ((le_grownCapacity_iff h.len_le _).mpr hfits)
      rcases hwrite with ⟨s', hrun, h', hlen, hcap⟩
      refine ⟨s', ?_, h', hlen, hcap⟩
      rw [MemCall.run, Routine.bind_of_ok hrun]
      rfl
  | read count =>
      obtain ⟨s', hrun, h', hlen, hcap⟩ := memread_eq h count
      refine ⟨s', ?_, h', hlen, hcap⟩
      simp only [MemCall.run, hrun, MemCall.runFifo]
  | rewind =>
      obtain ⟨s', hrun, h', hlen, hcap⟩ := hufMemrewind_eq h
      refine ⟨s', ?_, h', hlen, hcap⟩
      rw [MemCall.run, Routine.bind_of_ok hrun]
      rfl

/-- A call that does not fit copies past the block. -/
theorem MemCall.run_of_not_fits (h : Stores s fifo) {call : MemCall}
    (hfits : ¬ call.Fits s.mem.cap s.mem.len) : call.run s = .error .outOfBounds := by
  cases call with
  | write buf =>
      rw [MemCall.Fits] at hfits
      have hfull : s.mem.cap < s.mem.len + buf.length := by omega
      have hrun := memwrite_overruns h hfull
        (Nat.lt_of_not_le fun hle => hfits ((le_grownCapacity_iff h.len_le _).mp hle))
      rw [MemCall.run, Routine.bind_of_fault hrun]
  | read count => exact absurd trivial hfits
  | rewind => exact absurd trivial hfits

/-- A run that grows in time is a run of the ideal stream. -/
theorem runMemory_of_growthFits (calls : List MemCall) (h : Stores s fifo)
    (hgrowth : GrowthFits s.mem.cap s.mem.len calls) :
    ∃ s', runMemory calls s = .ok (.ok (runFifo calls fifo).1, s') ∧
      Stores s' (runFifo calls fifo).2 := by
  induction calls generalizing s fifo with
  | nil => exact ⟨s, rfl, h⟩
  | cons call calls ih =>
      obtain ⟨s₁, hrun, h₁, hlen, hcap⟩ := call.run_of_fits h hgrowth.1
      obtain ⟨s₂, hrest, h₂⟩ := ih h₁ (by rw [hlen, hcap]; exact hgrowth.2)
      refine ⟨s₂, ?_, h₂⟩
      rw [runMemory, Routine.bind_of_ok hrun, Routine.bind_of_ok hrest]
      rfl

/-- A run with a growth that does not make room copies past the block. -/
theorem runMemory_of_not_growthFits (calls : List MemCall) (h : Stores s fifo)
    (hgrowth : ¬ GrowthFits s.mem.cap s.mem.len calls) :
    runMemory calls s = .error .outOfBounds := by
  induction calls generalizing s fifo with
  | nil => exact absurd trivial hgrowth
  | cons call calls ih =>
      by_cases hfits : call.Fits s.mem.cap s.mem.len
      · obtain ⟨s₁, hrun, h₁, hlen, hcap⟩ := call.run_of_fits h hfits
        have hlater : ¬ GrowthFits s₁.mem.cap s₁.mem.len calls := by
          rw [hlen, hcap]
          exact fun hlater => hgrowth ⟨hfits, hlater⟩
        rw [runMemory, Routine.bind_of_ok hrun, Routine.bind_of_fault (ih h₁ hlater)]
      · rw [runMemory, Routine.bind_of_fault (MemCall.run_of_not_fits h hfits)]

end

/-- A growing run is exact in all of its states. -/
theorem memoryExact_of_growthFits {capacity : ℕ} {calls : List MemCall}
    (h : GrowthFits capacity 0 calls) : MemoryExact capacity calls := by
  obtain ⟨s, hrun, hs⟩ := runMemory_of_growthFits calls (stores_newMemStream capacity) h
  refine ⟨s, hrun, ?_, hs.len_le, hs.block.symm, hs.stored⟩
  rw [hs.off, ← hs.len]
  exact hs.off_le

theorem GrowthFits.of_prefix {cap len : ℕ} {front calls : List MemCall} (hfront : front <+: calls)
    (h : GrowthFits cap len calls) : GrowthFits cap len front := by
  induction front generalizing calls cap len with
  | nil => trivial
  | cons call front ih =>
      obtain ⟨calls', rfl, hfront'⟩ := List.cons_prefix_iff.mp hfront
      exact ⟨h.1, ih hfront' h.2⟩

/-- Every state of a run of the in-memory stream is exact if and only if every
growth of the run makes room. -/
theorem memory_exact_iff_growthFits (capacity : ℕ) (calls : List MemCall) :
    (∀ front, front <+: calls → MemoryExact capacity front) ↔ GrowthFits capacity 0 calls := by
  apply Iff.intro
  · intro hexact
    by_contra hgrowth
    obtain ⟨s, hrun, -⟩ := hexact calls (List.prefix_refl calls)
    rw [runMemory_of_not_growthFits calls (stores_newMemStream capacity) hgrowth] at hrun
    cases hrun
  · exact fun hgrowth front hfront => memoryExact_of_growthFits (hgrowth.of_prefix hfront)

/-- Nine bytes in a block of ten leave no room for fifteen more in a block of
twenty. -/
theorem memory_not_exact :
    ¬ MemoryExact 10 [.write (List.replicate 9 0), .write (List.replicate 15 0)] := by
  intro h
  rcases h with ⟨s, hrun, -⟩
  cases hrun

end LibHuffman
