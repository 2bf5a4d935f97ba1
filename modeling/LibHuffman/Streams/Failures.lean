/-
# Reading on after a failure

Nothing keeps a caller from reading again after `HUF_ERROR_READ_WRITE`. Whether
the buffer is then still in order depends on how the call failed. A direct read
clears the buffer; a refill sets the length to what it brought and leaves the
offset where the last byte of the old content was. If it brought fewer bytes than
the buffer held before, the offset is past the length.
-/

import LibHuffman.Streams.Reader

namespace LibHuffman

open Foundation

variable {ρ : Type}

/-- Read into the given destinations one after the other, whatever the calls
return, and list what each call returned and left behind. -/
def runReads : List (List UInt8) → Buffered ρ →
    Except Fault (List (Except HufError (List UInt8) × Buffered ρ))
  | [], _ => .ok []
  | buf :: bufs, b => do
    let call ← hufBufioRead buf b
    return call :: (← runReads bufs call.2)

/-- Every call of a run leaves the offset within the length and the length within
the capacity. -/
def StaysInOrder (bufs : List (List UInt8)) (b : Buffered ρ) : Prop :=
  ∃ calls, runReads bufs b = .ok calls ∧
    ∀ call ∈ calls, call.2.bufio.offset ≤ call.2.bufio.length ∧
      call.2.bufio.length ≤ call.2.bufio.capacity

/-- No call of a run overshoots, where the run starts with `left` bytes in the
stream. -/
def NeverOvershoots : ℕ → Gauge → List ℕ → Prop
  | _, _, [] => True
  | left, g, len :: lens =>
    ¬ g.Overshoots len (min (g.asked len) left) ∧
      NeverOvershoots (if g.missing len = 0 then left else left - min (g.asked len) left)
        (g.after len (min (g.asked len) left)) lens

theorem runReads_cons {buf : List UInt8} {bufs : List (List UInt8)} {b b' : Buffered ρ}
    {result : Except HufError (List UInt8)} (h : hufBufioRead buf b = .ok (result, b')) :
    runReads (buf :: bufs) b = (runReads bufs b').map ((result, b') :: ·) := by
  rw [runReads, h]
  show (runReads bufs b' >>= fun calls => pure ((result, b') :: calls)) = _
  cases runReads bufs b' <;> rfl

/-- The first call of a run and the others. -/
theorem staysInOrder_cons {buf : List UInt8} {bufs : List (List UInt8)} {b b' : Buffered ρ}
    {result : Except HufError (List UInt8)} (h : hufBufioRead buf b = .ok (result, b')) :
    StaysInOrder (buf :: bufs) b ↔ b'.bufio.gauge.Ordered ∧ StaysInOrder bufs b' := by
  rw [StaysInOrder, runReads_cons h]
  apply Iff.intro
  · intro hstays
    rcases hstays with ⟨calls, hrun, hordered⟩
    cases hlater : runReads bufs b' with
    | error fault =>
        rw [hlater] at hrun
        cases hrun
    | ok later =>
        rw [hlater] at hrun
        cases hrun
        exact ⟨hordered _ List.mem_cons_self, later, hlater,
          fun call hcall => hordered call (List.mem_cons_of_mem _ hcall)⟩
  · intro hstays
    rcases hstays with ⟨hfirst, later, hlater, hordered⟩
    refine ⟨(result, b') :: later, by rw [hlater]; rfl, ?_⟩
    intro call hcall
    cases hcall with
    | head => exact hfirst
    | tail _ hcall => exact hordered call hcall

/-- The offsets stay in order exactly as long as no call overshoots. -/
theorem staysInOrder_iff {src : Source ρ} (bufs : List (List UInt8)) {b : Buffered ρ}
    {rest : List UInt8} (h : Reading src b rest) :
    StaysInOrder bufs b ↔
      NeverOvershoots (src.remaining b.stream).length b.bufio.gauge (bufs.map List.length) := by
  induction bufs generalizing b rest with
  | nil => exact iff_of_true ⟨[], rfl, fun call hcall => absurd hcall List.not_mem_nil⟩ trivial
  | cons buf bufs ih =>
      obtain ⟨supplied, stream, result, b', hrun, hstep, hsupplied, hvalid, hsplit⟩ :=
        hufBufioRead_source h buf
      have hordered : b'.bufio.gauge.Ordered ↔
          ¬ b.bufio.gauge.Overshoots buf.length supplied.length := by
        rw [hstep.gauge]
        exact Gauge.ordered_after_iff ⟨h.offset_le, h.length_le⟩ (by omega)
      have hleft : (src.remaining b'.stream).length =
          if b.bufio.gauge.missing buf.length = 0 then (src.remaining b.stream).length
          else (src.remaining b.stream).length - supplied.length := by
        have htotal := congrArg List.length hsplit
        rw [List.length_append] at htotal
        by_cases hserved : b.bufio.gauge.missing buf.length = 0
        · rw [if_pos hserved] at htotal ⊢
          simpa using htotal
        · rw [if_neg hserved] at htotal ⊢
          omega
      rw [staysInOrder_cons hrun, List.map_cons, NeverOvershoots, ← hsupplied, hordered, ← hleft,
        ← hstep.gauge]
      apply and_congr_right
      intro hfits
      obtain ⟨hoffset, hlength⟩ := hordered.mpr hfits
      exact ih ⟨hstep.readWriter.trans h.readWriter, hvalid, hstep.block, hoffset, hlength, rfl⟩

/-- Over a stream that delivers what it has, the offsets of a buffer of any
capacity stay in order through a whole run, failures included, if and only if no
refill of the run that fails brings fewer bytes than the buffer held. -/
theorem runReads_inOrder_iff (src : Source ρ) (capacity : ℕ) (stream : ρ)
    (hvalid : src.valid stream) (bufs : List (List UInt8)) :
    StaysInOrder bufs ⟨newBufio src.readWriter capacity, stream⟩ ↔
      NeverOvershoots (src.remaining stream).length ⟨capacity, 0, 0⟩ (bufs.map List.length) :=
  staysInOrder_iff bufs (reading_newBufio src capacity hvalid)

/-- Two requests for three of five bytes, through a buffer of four. -/
theorem runReads_inOrder_fifo :
    StaysInOrder [[0, 0, 0], [0, 0, 0]]
        ⟨newBufio Fifo.source.readWriter 4, ⟨[1, 2, 3, 4, 5], 0⟩⟩ ↔
      NeverOvershoots 5 ⟨4, 0, 0⟩ [3, 3] :=
  runReads_inOrder_iff Fifo.source 4 ⟨[1, 2, 3, 4, 5], 0⟩ trivial [[0, 0, 0], [0, 0, 0]]

/-- The second of these requests fails and leaves the offset at four, the length
at one. -/
theorem runReads_not_inOrder :
    ¬ StaysInOrder [[0, 0, 0], [0, 0, 0]] ⟨newBufio Fifo.readWriter 4, ⟨[1, 2, 3, 4, 5], 0⟩⟩ := by
  intro h
  rcases h with ⟨calls, hrun, hordered⟩
  cases hrun
  exact absurd (hordered _ (List.mem_cons_of_mem _ List.mem_cons_self)).1 (by decide)

end LibHuffman
