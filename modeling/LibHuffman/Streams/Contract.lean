/-
# What the library expects of its streams

The encoder and the decoder are proved against any stream that keeps a promise,
not against one implementation. A `Source` delivers as many bytes as are asked
for or left, as long as it is in a valid state, a `FallibleSink` appends all of a
write or, with an error, nothing, and a `Sink` never fails. The ideal in-memory
stream `Fifo` keeps all of them.
-/

import LibHuffman.Model.Bufio

namespace LibHuffman

open Foundation

/-- A stream to read from. -/
structure Source (ρ : Type) where
  readWriter : HufReadWriter ρ
  /-- The states in which the stream keeps its promise; reading does not leave them. -/
  valid : ρ → Prop
  /-- The bytes not delivered yet. -/
  remaining : ρ → List UInt8
  read_delivers : ∀ (count : ℕ) (s : ρ), valid s → ∃ s',
    readWriter.read count s =
        .ok (⟨none, (remaining s).take count, min count (remaining s).length⟩, s') ∧
      valid s' ∧ remaining s' = (remaining s).drop count

/-- A stream to write to, whose writes may fail. -/
structure FallibleSink (ω : Type) where
  readWriter : HufReadWriter ω
  /-- The bytes appended so far. -/
  content : ω → List UInt8
  write_all_or_nothing : ∀ (data : List UInt8) (s : ω),
    (∃ s', readWriter.write data s = .ok (.ok (), s') ∧ content s' = content s ++ data) ∨
      ∃ code s', readWriter.write data s = .ok (.error code, s') ∧ content s' = content s

/-- A stream whose writes succeed. -/
structure Sink (ω : Type) extends FallibleSink ω where
  write_succeeds : ∀ data s code s', readWriter.write data s ≠ .ok (.error code, s')

/-! ## A new buffer -/

section

variable {σ : Type}

/-- The buffer that `huf_bufio_read_writer_init` creates. -/
def newBufio (readWriter : HufReadWriter σ) (capacity : ℕ) : HufBufioReadWriter σ where
  bytes := List.replicate capacity 0
  offset := 0
  capacity := capacity
  length := 0
  haveBeenProcessed := 0
  readWriter := readWriter

theorem hufBufioReadWriterInit_none (capacity : ℕ) (c : Creation (HufBufioReadWriter σ)) :
    hufBufioReadWriterInit none capacity c = .ok (.error .invalidArgument, c) := rfl

theorem hufBufioReadWriterInit_eq (readWriter : HufReadWriter σ) (capacity : ℕ) :
    hufBufioReadWriterInit (some readWriter) capacity ⟨none, []⟩ =
      .ok (.ok (), ⟨some (newBufio readWriter capacity), []⟩) := by
  by_cases hcap : capacity = 0
  · simp [hufBufioReadWriterInit, requireParam, hcap, newBufio]
  · simp [hufBufioReadWriterInit, requireParam, hcap, newBufio]

end

/-! ## The ideal in-memory stream -/

/-- An unbounded buffer that is written at its end and read from its front. -/
structure Fifo where
  stored : List UInt8
  off : ℕ
  deriving DecidableEq

namespace Fifo

/-- The empty stream. -/
def empty : Fifo := ⟨[], 0⟩

/-- Append to the stream. -/
def write (buf : List UInt8) (s : Fifo) : Fifo := { s with stored := s.stored ++ buf }

/-- The bytes that have not been read. -/
def unread (s : Fifo) : List UInt8 := s.stored.drop s.off

/-- Move past bytes that have been read. -/
def advance (count : ℕ) (s : Fifo) : Fifo := { s with off := s.off + min count s.unread.length }

/-- The functions of the ideal stream. -/
def readWriter : HufReadWriter Fifo where
  write buf := Routine.modify (write buf)
  read count s := .ok (⟨none, s.unread.take count, min count s.unread.length⟩, s.advance count)

theorem unread_advance (count : ℕ) (s : Fifo) :
    (s.advance count).unread = s.unread.drop count := by
  rw [unread, advance, ← List.drop_drop]
  show s.unread.drop (min count s.unread.length) = s.unread.drop count
  rcases Nat.le_total count s.unread.length with h | h
  · rw [Nat.min_eq_left h]
  · simp [Nat.min_eq_right h, List.drop_eq_nil_of_le h]

/-- The ideal stream delivers what was written to it. -/
def source : Source Fifo where
  readWriter := readWriter
  valid _ := True
  remaining := unread
  read_delivers count s _ := ⟨s.advance count, rfl, trivial, s.unread_advance count⟩

/-- The ideal stream accepts every write. -/
def sink : Sink Fifo where
  readWriter := readWriter
  content := stored
  write_all_or_nothing data s := Or.inl ⟨s.write data, rfl, rfl⟩
  write_succeeds data s code s' h := by cases h

end Fifo

end LibHuffman
