/-
# The memory streams of `io.c`

The kind of memory streams that the module really uses. A `MemStream` is a pointer to a stream
of `io.c`, which grows as that one grows, and which `huf_memclose` sets to `NULL`. Only the file
underneath a `HuffmanFile` is an ideal stream here as well.
-/

import LibHuffman.HuffmanFile.Classes
import LibHuffman.Streams.Memory

namespace LibHuffman.Native

open Foundation

/-- The pointer of a `MemStream`. -/
abbrev StreamPointer : Type := Option MemStream

/-- The stream that the pointer leads to. -/
def this : Place Fault StreamPointer MemStream where
  load := deref
  store s _ := some s

/-- A function of `io.c` that checks its parameter. -/
def checked {α : Type} (x : CRoutine MemStream α) : CRoutine StreamPointer α := do
  let _ ← requireParam (← Routine.get)
  Routine.within this x

/-- `huf_memclose` -/
def hufMemclose : CRoutine StreamPointer Unit := do
  let _ ← Routine.demand (deref (← Routine.get))
  Routine.modify fun _ => none

/-- The streams of `io.c`. -/
instance nativeStreams : MemoryStreams StreamPointer MemStream where
  memopen capacity := some (newMemStream capacity)
  stream := this
  readWriter := memReadWriter
  buffer o len := do slice (← deref o).mem.buf 0 len
  memlen := checked hufMemlen
  memrewind := checked hufMemrewind
  memclose := hufMemclose

end LibHuffman.Native
