/-
# File descriptors of `io.c`

What `read` and `write` return is up to the system. The outcomes of the coming
calls are part of the state of a descriptor, and so is the history of the past
ones; an outcome `none` is the return value -1. A call never transfers more than
it is asked for, and past the end of the list `read` is at the end of the file
and `write` takes everything.
-/

import LibHuffman.Model.Io

namespace LibHuffman

open Foundation

/-- An open descriptor. -/
structure Descriptor where
  /-- The bytes that the coming calls of `read` have for the program. -/
  reads : List (Option (List UInt8))
  /-- How many bytes the coming calls of `write` can take. -/
  writes : List (Option ℕ)
  /-- What `read` has returned. -/
  haveRead : List (Option (List UInt8))
  /-- What `write` has taken. -/
  haveWritten : List UInt8
  deriving DecidableEq

/-- `read(2)` -/
def Descriptor.read (count : ℕ) (d : Descriptor) : Option (List UInt8) × Descriptor :=
  let outcome := (d.reads.headD (some [])).map (·.take count)
  (outcome, { d with reads := d.reads.tail, haveRead := d.haveRead ++ [outcome] })

/-- `write(2)` -/
def Descriptor.write (buf : List UInt8) (d : Descriptor) : Option ℕ × Descriptor :=
  let outcome := (d.writes.headD (some buf.length)).map (min buf.length)
  (outcome, { d with
    writes := d.writes.tail
    haveWritten := d.haveWritten ++ buf.take (outcome.getD 0) })

/-- Conversion of a result of `read` or `write` to `size_t`. -/
def toSize : Option ℕ → ℕ
  | none => sizeMax
  | some count => count

/-- `fdwrite` -/
def fdwrite (buf : List UInt8) : CRoutine Descriptor Unit := do
  let haveWritten := toSize ((← Routine.get).write buf).1
  Routine.modify fun s => (s.write buf).2
  if haveWritten ≠ buf.length then
    Routine.fail .readWrite

/-- `fdread`. The comparison with zero is one of a `size_t`. -/
def fdread (count : ℕ) (s : Descriptor) : Except Fault (ReadResult × Descriptor) :=
  let (outcome, s') := s.read count
  let haveRead := toSize (outcome.map List.length)
  let code := if haveRead < 0 then some HufError.readWrite else none
  .ok (⟨code, outcome.getD [], haveRead⟩, s')

/-- The two functions of a stream that `huf_fdopen` creates. -/
def fdReadWriter : HufReadWriter Descriptor := ⟨fdwrite, fdread⟩

end LibHuffman
