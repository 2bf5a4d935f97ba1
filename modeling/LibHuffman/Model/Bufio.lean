/-
# Bit buffer and buffered streams of `bufio.c`

A buffered stream serves as a reader or as a writer, never as both. Its buffer
is allocated once with the capacity of the configuration; capacity zero means no
buffer at all and every request goes to the stream.
-/

import LibHuffman.Model.Io

namespace LibHuffman

open Foundation

/-! ## Bit buffer -/

/-- `huf_bit_read_writer_t` -/
structure HufBitReadWriter where
  bits : UInt8
  offset : ℕ
  deriving DecidableEq

/-- `huf_bit_write` -/
def hufBitWrite (self : HufBitReadWriter) (bit : UInt8) : HufBitReadWriter :=
  let offset := self.offset - (if self.offset ≠ 0 then 1 else 0)
  { bits := self.bits ||| ((bit &&& 1) <<< UInt8.ofNat offset), offset }

/-- `huf_bit_read_writer_reset` -/
def hufBitReadWriterReset : HufBitReadWriter := { bits := 0, offset := 8 }

/-! ## Buffered stream -/

/-- `huf_bufio_read_writer_t` -/
structure HufBufioReadWriter (σ : Type) where
  bytes : List UInt8
  offset : ℕ
  capacity : ℕ
  length : ℕ
  haveBeenProcessed : ℕ
  readWriter : HufReadWriter σ

/-- A buffer and the stream behind it. -/
structure Buffered (σ : Type) where
  bufio : HufBufioReadWriter σ
  stream : σ

section

variable {σ : Type}

/-- Change the buffer only. -/
def Buffered.onBufio (change : HufBufioReadWriter σ → HufBufioReadWriter σ)
    (s : Buffered σ) : Buffered σ :=
  { s with bufio := change s.bufio }

/-- The stream behind a buffer. -/
def Buffered.underlying : Place Fault (Buffered σ) σ where
  load s := .ok s.stream
  store stream s := { s with stream }

/-- `huf_bufio_read_writer_init` -/
def hufBufioReadWriterInit (readWriter : Option (HufReadWriter σ)) (capacity : ℕ) :
    CRoutine (Creation (HufBufioReadWriter σ)) Unit := do
  let readWriter ← requireParam readWriter
  Creation.malloc
  let self : HufBufioReadWriter σ := ⟨[], 0, 0, 0, 0, readWriter⟩
  Creation.assign self
  if capacity ≠ 0 then
    Creation.malloc
  Creation.assign { self with bytes := List.replicate capacity 0, capacity }

/-- `huf_bufio_read_writer_free` -/
def hufBufioReadWriterFree : CRoutine (Option (HufBufioReadWriter σ)) Unit := do
  let _ ← Routine.demand (deref (← Routine.get))
  Routine.modify fun _ => none

/-- `__write_m` -/
def writeUnderlying (data : List UInt8) : CRoutine (Buffered σ) Unit := do
  let self := (← Routine.get).bufio
  Routine.within Buffered.underlying (self.readWriter.write data)

/-- `__read_m` -/
def readUnderlying (count : ℕ) : CRoutine (Buffered σ) ReadResult := fun s =>
  match s.bufio.readWriter.read count s.stream with
  | .error fault => .error fault
  | .ok (result, stream) => .ok (.ok result, { s with stream })

/-- Leave with the code of a `read`, if it is an error. -/
def ReadResult.raise (result : ReadResult) : CRoutine (Buffered σ) Unit :=
  match result.code with
  | none => pure ()
  | some code => Routine.fail code

/-- `huf_bufio_read_writer_flush` -/
def hufBufioReadWriterFlush : CRoutine (Buffered σ) Unit := do
  let self := (← Routine.get).bufio
  if self.length ≠ 0 then
    let data ← Routine.demand (slice self.bytes 0 self.length)
    writeUnderlying data
    Routine.modify (Buffered.onBufio fun self => { self with length := 0 })
    Routine.modify (Buffered.onBufio fun self =>
      { self with haveBeenProcessed := self.haveBeenProcessed + self.length })

/-- `__huf_bufio_read_writer_flush`, the flush of a full buffer. -/
def hufBufioReadWriterFlushFull : CRoutine (Buffered σ) Unit := do
  let self := (← Routine.get).bufio
  if self.length ≥ self.capacity ∧ self.length ≠ 0 then
    let data ← Routine.demand (slice self.bytes 0 self.length)
    writeUnderlying data
    Routine.modify (Buffered.onBufio fun self =>
      { self with haveBeenProcessed := self.haveBeenProcessed + self.length })
    Routine.modify (Buffered.onBufio fun self => { self with length := 0 })
    if (← Routine.get).bufio.length ≠ 0 then
      Routine.fail .readWrite

/-- `huf_bufio_write` -/
def hufBufioWrite (buf : List UInt8) : CRoutine (Buffered σ) Unit := do
  hufBufioReadWriterFlushFull
  let self := (← Routine.get).bufio
  let availableToWrite := sizeSub self.capacity self.length
  if self.capacity ≠ 0 ∧ buf.length ≤ availableToWrite then
    let bytes ← Routine.demand (memcpy self.bytes self.length buf)
    Routine.modify (Buffered.onBufio fun self =>
      { self with
        bytes
        length := self.length + buf.length
        haveBeenProcessed := self.haveBeenProcessed + buf.length })
  else if buf.length > 0 then
    hufBufioReadWriterFlush
    writeUnderlying buf
    Routine.modify (Buffered.onBufio fun self =>
      { self with haveBeenProcessed := self.haveBeenProcessed + buf.length })

/-- The first half of `huf_bufio_read`: copy what is left in the buffer, at most
`len` bytes. -/
def copyBuffered (len : ℕ) : CRoutine (Buffered σ) (List UInt8) := do
  let self := (← Routine.get).bufio
  let availableToRead := sizeSub self.length self.offset
  if availableToRead > 0 ∧ len > 0 then
    let bytesToCopy := if availableToRead > len then len else availableToRead
    let data ← Routine.demand (slice self.bytes self.offset bytesToCopy)
    Routine.modify (Buffered.onBufio fun self => { self with offset := self.offset + bytesToCopy })
    return data
  else
    return []

/-- The second half of `huf_bufio_read`: read the bytes at `buf`, which the
buffer could not serve, from the stream; directly if they do not fit in the
buffer, else through the buffer. -/
def readThrough (buf : List UInt8) : CRoutine (Buffered σ) (List UInt8) := do
  let self := (← Routine.get).bufio
  if buf.length ≥ self.capacity then
    let result ← readUnderlying buf.length
    result.raise
    let buf' ← Routine.demand (memcpy buf 0 result.data)
    Routine.modify (Buffered.onBufio fun self => { self with length := 0, offset := 0 })
    if result.count < buf.length then
      Routine.fail .readWrite
    return buf'
  else
    let result ← readUnderlying self.capacity
    let bytes ← Routine.demand (memcpy self.bytes 0 result.data)
    Routine.modify (Buffered.onBufio fun self => { self with bytes, length := result.count })
    result.raise
    if buf.length > result.count then
      Routine.fail .readWrite
    let buf' ← Routine.demand (slice bytes 0 buf.length)
    Routine.modify (Buffered.onBufio fun self => { self with offset := buf.length })
    return buf'

/-- `huf_bufio_read`. The argument is the destination, as long as the number of
bytes requested; the result is its new content. -/
def hufBufioRead (buf : List UInt8) : CRoutine (Buffered σ) (List UInt8) := do
  let copied ← copyBuffered buf.length
  let rest := buf.drop copied.length
  let read ← if rest.length = 0 then pure [] else readThrough rest
  Routine.modify (Buffered.onBufio fun self =>
    { self with haveBeenProcessed := self.haveBeenProcessed + buf.length })
  return copied ++ read

/-- `huf_bufio_read_uint8` -/
def hufBufioReadUint8 (byte : UInt8) : CRoutine (Buffered σ) UInt8 := do
  let buf ← hufBufioRead [byte]
  Routine.demand (load buf 0)

/-- `huf_bufio_write_uint8` -/
def hufBufioWriteUint8 (byte : UInt8) : CRoutine (Buffered σ) Unit :=
  hufBufioWrite [byte]

end

end LibHuffman
