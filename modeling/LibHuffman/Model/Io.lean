/-
# Streams of `io.c`

A `huf_read_writer_t` is a stream with its two functions. The library calls it
only through these, so the stream is a type parameter of everything that reads
or writes. The in-memory stream is the one that the tests and the Python module
use: a block that is reallocated when a write does not fit.
-/

import LibHuffman.Model.System

namespace LibHuffman

open Foundation

/-- What a `read` reports to its caller. -/
structure ReadResult where
  /-- The returned code, `none` for `HUF_ERROR_SUCCESS`. -/
  code : Option HufError
  /-- The bytes written to the start of the destination. -/
  data : List UInt8
  /-- The value written to `*count`. -/
  count : ℕ

/-- `huf_read_writer_t` over streams `σ`. -/
structure HufReadWriter (σ : Type) where
  write : List UInt8 → CRoutine σ Unit
  read : ℕ → σ → Except Fault (ReadResult × σ)

/-- `huf_membuf_t`. The block `*buf` is as long as its allocation. -/
structure HufMembuf where
  buf : List UInt8
  off : ℕ
  len : ℕ
  cap : ℕ
  deriving DecidableEq

/-- An in-memory stream and the outcomes of the coming allocations. -/
structure MemStream where
  mem : HufMembuf
  allocations : List Bool
  deriving DecidableEq

/-- Where the stream finds the allocator. -/
def MemStream.allocator : Place Fault MemStream (List Bool) where
  load s := .ok s.allocations
  store outcomes s := { s with allocations := outcomes }

/-- The capacity that a write of `count` bytes grows a full buffer to. -/
def grownCapacity (cap count : ℕ) : ℕ :=
  if count > cap * 2 then count * 2 else cap * 2

/-- `memwrite` -/
def memwrite (buf : List UInt8) : CRoutine MemStream Unit := do
  let mem := (← Routine.get).mem
  let newcap := grownCapacity mem.cap buf.length
  if mem.cap ≥ mem.len + buf.length then
    let block ← Routine.demand (memcpy mem.buf mem.len buf)
    Routine.modify fun s => { s with mem := { mem with buf := block, len := mem.len + buf.length } }
  else
    Routine.within MemStream.allocator hufMalloc
    let written ← Routine.demand (slice mem.buf 0 mem.len)
    let newbuf ← Routine.demand (memcpy (List.replicate newcap 0) 0 written)
    let newbuf ← Routine.demand (memcpy newbuf mem.len buf)
    Routine.modify fun s =>
      { s with mem := { mem with buf := newbuf, len := mem.len + buf.length, cap := newcap } }

/-- `memread` -/
def memread (count : ℕ) (s : MemStream) : Except Fault (ReadResult × MemStream) := do
  let mem := s.mem
  let numRemained := sizeSub mem.len mem.off
  let numCopy := if count > numRemained then numRemained else count
  if numCopy > 0 then
    let data ← slice mem.buf mem.off numCopy
    pure (⟨none, data, numCopy⟩, { s with mem := { mem with off := mem.off + numCopy } })
  else
    pure (⟨none, [], numCopy⟩, s)

/-- `huf_memlen` -/
def hufMemlen : CRoutine MemStream ℕ := do
  return (← Routine.get).mem.len

/-- `huf_memrewind` -/
def hufMemrewind : CRoutine MemStream Unit :=
  Routine.modify fun s => { s with mem := { s.mem with len := 0, off := 0 } }

/-- `huf_memopen`: the block, the read-writer and the stream are allocated in
this order. -/
def hufMemopen (capacity : ℕ) : CRoutine (List Bool) HufMembuf := do
  hufMalloc
  hufMalloc
  hufMalloc
  return ⟨List.replicate capacity 0, 0, 0, capacity⟩

/-- The two functions of an in-memory stream. -/
def memReadWriter : HufReadWriter MemStream := ⟨memwrite, memread⟩

end LibHuffman
