/-
# The ideal run of a call

A call on real streams is compared with the same call on ideal streams, without buffers
and without failures. What the input has still to deliver and what the output holds
already is the same for both.
-/

import LibHuffman.Allocation.Cleanup
import LibHuffman.Foundation.Tie
import LibHuffman.Streams.Writer
import LibHuffman.Streams.Reader

namespace LibHuffman

open Foundation Allocating

variable {ρ ω : Type}

/-- Why a run leaves with a code that the ideal one does not leave with: an allocation
failed, or a write. -/
def Interrupted (sink : PartialSink ω) (first : List Bool) (code : HufError) : Prop :=
  (code = .memoryAllocation ∧ false ∈ first) ∨ sink.Refuses code

theorem Exhausted.mem {first later : List Bool} (h : Exhausted first later) : false ∈ first := by
  rcases h with ⟨used, rfl, -⟩
  simp

/-- What the stream of a writer holds is the beginning of what was accepted. -/
theorem Appending.begins {sink : PartialSink ω} {base written : List UInt8} {b : Buffered ω}
    (h : Appending sink base b written) : sink.content b.stream <+: written := by
  rw [← h.content]
  exact List.prefix_append _ _

/-- A flush that succeeds leaves nothing in the buffer. -/
theorem hufBufioReadWriterFlush_empties : Triple (fun _ : Buffered ω => True)
    hufBufioReadWriterFlush (fun _ b => b.bufio.length = 0) fun _ _ => True := by
  apply Triple.get_bind
  intro b₀
  apply Triple.ite
  · intro _
    apply Triple.demand_bind
    intro data _
    apply Triple.unconditional.bind
    intro _
    apply Triple.bind (Q := fun _ b => b.bufio.length = 0)
    · exact Triple.modify fun _ _ => rfl
    · intro _
      exact Triple.modify fun _ hb => hb
  · intro hlen
    apply Triple.pure
    rintro b ⟨rfl, -⟩
    exact not_not.mp hlen

/-- A writer without a buffer over an ideal stream, which holds what was accepted. -/
structure Unbuffered (b : Buffered Fifo) (written : List UInt8) : Prop
    extends Writing Fifo.sink.toFallibleSink b written where
  capacity : b.bufio.capacity = 0

namespace Unbuffered

variable {b : Buffered Fifo} {written : List UInt8}

theorem stored (h : Unbuffered b written) : b.stream.stored = written := by
  have hempty : b.bufio.length = 0 := Nat.le_zero.mp (h.capacity ▸ h.length_le)
  have hcontent := h.content
  rwa [hempty, List.take_zero, List.append_nil] at hcontent

theorem of_ends {outcome : Outcome Fault HufError (Buffered Fifo) Unit} {accepted : List UInt8}
    {post : Buffered Fifo → Prop} (h : Unbuffered b written)
    (hends : WriteEnds Fifo.sink.toFallibleSink b.bufio.capacity outcome accepted written post) :
    ∃ b', outcome = .ok (.ok (), b') ∧ Unbuffered b' accepted := by
  rcases hends with ⟨b', hrun, h', hcapacity, -⟩ | ⟨code, -, -, -, -, hrefuses⟩
  · exact ⟨b', hrun, h', hcapacity.trans h.capacity⟩
  · exact absurd hrefuses (Fifo.sink.not_refuses code)

theorem write_ok (h : Unbuffered b written) (buf : List UInt8) :
    ∃ b', hufBufioWrite buf b = .ok (.ok (), b') ∧ Unbuffered b' (written ++ buf) :=
  h.of_ends (hufBufioWrite_ends h.toWriting buf)

theorem flush_ok (h : Unbuffered b written) :
    ∃ b', hufBufioReadWriterFlush b = .ok (.ok (), b') ∧ Unbuffered b' written :=
  h.of_ends (hufBufioReadWriterFlush_ends h.toWriting)

end Unbuffered

theorem unbuffered_newBufio (stream : Fifo) :
    Unbuffered ⟨newBufio Fifo.readWriter 0, stream⟩ stream.stored :=
  ⟨writing_newBufio Fifo.sink.toFallibleSink 0 stream, rfl⟩

/-- The configuration of the ideal call. -/
def idealConfig (config : HufConfig ρ ω) : HufConfig Fifo Fifo where
  length := config.length
  blocksize := config.blocksize
  readerBufferSize := 0
  writerBufferSize := 0
  reader := some Fifo.readWriter
  writer := some Fifo.readWriter

/-- What the ideal call shares with its caller. -/
def idealWorld (src : Source ρ) (sink : PartialSink ω) (world : World ρ ω) : World Fifo Fifo where
  input := ⟨src.remaining world.input, 0⟩
  output := ⟨sink.content world.output, 0⟩
  heap := schedule [] world.heap

/-- The ideal call has its streams and its memory. -/
theorem ready_ideal {src : Source ρ} {sink : PartialSink ω} {config : HufConfig ρ ω}
    {world : World ρ ω} (n : ℕ) :
    Ready n (some (idealConfig config)) (idealWorld src sink world) := by
  refine ⟨_, rfl, by simp [idealConfig], by simp [idealConfig], ?_⟩
  show Granted [] _
  simp [Granted]

/-! ## Routines that leave the output alone -/

section

variable {γ α : Type}

/-- A routine that does not change the output of its caller. -/
abbrev KeepsOutput (x : CRoutine (γ × World ρ ω) α) : Prop :=
  Preserves (fun s => s.2.output) x

end

section

variable {γ : Type} {body cleanup : CRoutine (SelfRun γ ρ ω) Unit} {world : World ρ ω}
  {r : Except HufError Unit}

/-- A call that returns has released its object, and what it has written is what its body
has written. -/
theorem FailsSafely.call_of_body {config : Option (HufConfig ρ ω)}
    (h : FailsSafely body cleanup config world) (hkeeps : KeepsOutput cleanup)
    {s : SelfRun γ ρ ω} (hbody : body (none, world) = .ok (r, s)) :
    ∃ world', Routine.withLocal none (Routine.ensuring body cleanup) world = .ok (r, world') ∧
      world'.output = s.2.output := by
  rcases h.released r s hbody with ⟨q, s', hfree⟩
  refine ⟨s'.2, ?_, hkeeps.of_ok hfree⟩
  exact Routine.withLocal_of_ok (Routine.ensuring_of_ok hbody hfree)

/-- A call that returns has come to the end of its body. -/
theorem body_of_call (hkeeps : KeepsOutput cleanup) {world' : World ρ ω}
    (hrun : Routine.withLocal none (Routine.ensuring body cleanup) world = .ok (r, world')) :
    ∃ s, body (none, world) = .ok (r, s) ∧ world'.output = s.2.output := by
  rcases Routine.withLocal_eq_ok hrun with ⟨last, hrun⟩
  rcases Routine.ensuring_eq_ok hrun with ⟨s, q, hbody, hfree⟩
  exact ⟨s, hbody, hkeeps.of_ok hfree⟩

end

end LibHuffman
