/-
# The Python module `huffmanfile.py`

`HuffmanCompressor` and `HuffmanDecompressor` keep two memory streams and a
configuration between the calls of their methods, and run `huf_encode` and
`huf_decode` on them. They are written for any kind of memory streams, among them ideal
ones: unbounded buffers that are written at the end and read from the front. Methods raise
exceptions where the library returns codes. `HuffmanFile` has one of the two and a file
underneath, which is an ideal stream.
-/

import LibHuffman.Model.Decoder
import LibHuffman.Model.Encoder
import LibHuffman.Streams.Contract

namespace LibHuffman

open Foundation

/-- The exceptions that the module raises. -/
inductive PyException
  | huffmanError (message : String)
  | valueError (message : String)
  | typeError (message : String)
  | unsupportedOperation (message : String)
  | zeroDivisionError
  deriving DecidableEq

/-- A method of an object `σ`. -/
abbrev PyRoutine (σ α : Type) : Type := Routine Fault PyException σ α

section

variable {σ α : Type}

/-- A call of the library followed by `unwrap_exc`. -/
def unwrapExc (call : CRoutine σ α) (message : String) : PyRoutine σ α := fun s =>
  match call s with
  | .error fault => .error fault
  | .ok (.error code, s') =>
    .ok (.error (.huffmanError (hufErrorString code ++ ". " ++ message)), s')
  | .ok (.ok a, s') => .ok (.ok a, s')

section

variable {call : CRoutine σ α} {message : String} {s s' : σ}

theorem unwrapExc_of_ok {a : α} (h : call s = .ok (.ok a, s')) :
    unwrapExc call message s = .ok (.ok a, s') := by
  simp only [unwrapExc, h]

theorem unwrapExc_of_error {code : HufError} (h : call s = .ok (.error code, s')) :
    unwrapExc call message s =
      .ok (.error (.huffmanError (hufErrorString code ++ ". " ++ message)), s') := by
  simp only [unwrapExc, h]

theorem unwrapExc_of_fault {fault : Fault} (h : call s = .error fault) :
    unwrapExc call message s = .error fault := by
  simp only [unwrapExc, h]

end

/-- Where an index of a slice points to: a negative one counts from the end, and
both are cut off at the ends. -/
def sliceIndex (len : ℕ) (i : ℤ) : ℕ :=
  if i < 0 then (len + i).toNat else min i.toNat len

/-- `xs[start:stop]` -/
def pySlice (xs : List α) (start stop : ℤ) : List α :=
  (xs.take (sliceIndex xs.length stop)).drop (sliceIndex xs.length start)

/-- `a // b` of two integers that are not negative. -/
def floorDiv (a b : ℕ) : PyRoutine σ ℕ :=
  if b = 0 then Routine.fail .zeroDivisionError else pure (a / b)

theorem floorDiv_zero (a : ℕ) : (floorDiv a 0 : PyRoutine σ ℕ) = Routine.fail .zeroDivisionError :=
  rfl

theorem floorDiv_of_ne {a b : ℕ} (h : b ≠ 0) : (floorDiv a b : PyRoutine σ ℕ) = pure (a / b) :=
  if_neg h

end

/-! ## `MemStream` -/

/-- What a `MemStream` is made of: a pointer of type `κ` to a stream of type `μ` of the
library, and the functions of `io.c` that it calls. -/
class MemoryStreams (κ : Type) (μ : outParam Type) where
  /-- `huf_memopen`, of allocations that succeed. -/
  memopen : ℕ → κ
  /-- The stream that the pointer leads to. -/
  stream : Place Fault κ μ
  /-- The functions of the stream. -/
  readWriter : HufReadWriter μ
  /-- The first bytes of the buffer of the stream. -/
  buffer : κ → ℕ → Except Fault (List UInt8)
  /-- `huf_memlen` -/
  memlen : CRoutine κ ℕ
  /-- `huf_memrewind` -/
  memrewind : CRoutine κ Unit
  /-- `huf_memclose` -/
  memclose : CRoutine κ Unit

/-- Ideal streams. Their buffer has what they store; it is released when they are closed. -/
instance idealStreams : MemoryStreams Fifo Fifo where
  memopen _ := Fifo.empty
  stream := { load := .ok, store := fun s _ => s }
  readWriter := Fifo.readWriter
  buffer s _ := .ok s.stored
  memlen := do return (← Routine.get).stored.length
  memrewind := Routine.modify fun _ => Fifo.empty
  memclose := Routine.modify fun _ => Fifo.empty

section

variable {κ μ : Type} [MemoryStreams κ μ]

/-- `MemStream.write` -/
def memStreamWrite (data : List UInt8) : PyRoutine κ Unit :=
  unwrapExc (Routine.within MemoryStreams.stream ((MemoryStreams.readWriter κ).write data))
    "Failed to write data to the memory stream"

/-- `MemStream.__len__` -/
def memStreamLen : PyRoutine κ ℕ :=
  unwrapExc MemoryStreams.memlen "Failed to retrieve length of the memory stream"

/-- `MemStream.getvalue` -/
def memStreamGetvalue : PyRoutine κ (List UInt8) := do
  let len ← memStreamLen
  Routine.demand (MemoryStreams.buffer (← Routine.get) len)

/-- `MemStream.seek`, where `io.SEEK_SET` is zero. -/
def memStreamSeek (offset : ℤ) (whence : ℤ) : PyRoutine κ Unit :=
  if whence ≠ 0 then
    Routine.fail (.valueError ("Seek on in-memory stream allows only io.SEEK_SET; got " ++
      toString whence ++ ", which is not supported"))
  else if offset ≠ 0 then
    Routine.fail (.valueError ("Seek on in-memory stream allows only rewinds; got offset = " ++
      toString offset ++ " which is not supported"))
  else
    unwrapExc MemoryStreams.memrewind "Failed to rewind memory stream"

/-- `MemStream.close` -/
def memStreamClose : PyRoutine κ Unit :=
  unwrapExc MemoryStreams.memclose "Failed to close memory stream"

end

/-! ## `HuffmanCompressor` -/

/-- `HuffmanCompressor`, with the heap that the library allocates from. -/
structure HuffmanCompressor (κ μ : Type) where
  blocksize : ℕ
  flushed : Bool
  istream : κ
  ostream : κ
  config : HufConfig μ μ
  heap : Heap

namespace HuffmanCompressor

variable {κ μ : Type}

/-- The input stream of the compressor. -/
def istreamPlace : Place Fault (HuffmanCompressor κ μ) κ where
  load c := .ok c.istream
  store istream c := { c with istream }

/-- The output stream of the compressor. -/
def ostreamPlace : Place Fault (HuffmanCompressor κ μ) κ where
  load c := .ok c.ostream
  store ostream c := { c with ostream }

/-- `self._config.length = length` -/
def setLength (length : ℕ) : PyRoutine (HuffmanCompressor κ μ) Unit :=
  Routine.modify fun c => { c with config := { c.config with length } }

variable [MemoryStreams κ μ]

/-- What the library sees of the compressor. -/
def world : Place Fault (HuffmanCompressor κ μ) (World μ μ) where
  load c := do
    return ⟨← MemoryStreams.stream.load c.istream, ← MemoryStreams.stream.load c.ostream, c.heap⟩
  store w c := { c with
    istream := MemoryStreams.stream.store w.input c.istream
    ostream := MemoryStreams.stream.store w.output c.ostream
    heap := w.heap }

/-- `HuffmanCompressor.__init__`, with memory streams of type `κ`. -/
def init (κ : Type) [MemoryStreams κ μ] (blocksize : ℕ) (heap : Heap) :
    HuffmanCompressor κ μ where
  blocksize := blocksize
  flushed := false
  istream := MemoryStreams.memopen blocksize
  ostream := MemoryStreams.memopen blocksize
  config := ⟨0, blocksize, 0, 0, some (MemoryStreams.readWriter κ),
    some (MemoryStreams.readWriter κ)⟩
  heap := heap

/-- `huf_encode` of `self._config` -/
def encode : PyRoutine (HuffmanCompressor κ μ) Unit := do
  let config := (← Routine.get).config
  Routine.within world (unwrapExc (hufEncode (some config)) "Failed to encode the data")

/-- The statements of `compress` for at least one block. -/
def encodeAvailable (data : List UInt8) (numBytes : ℕ) (maxBytes : ℤ) :
    PyRoutine (HuffmanCompressor κ μ) (List UInt8) := do
  Routine.within istreamPlace (memStreamWrite (pySlice data 0 maxBytes))
  setLength numBytes
  encode
  let encoding ← Routine.within ostreamPlace memStreamGetvalue
  Routine.within istreamPlace (memStreamSeek 0 0)
  Routine.within ostreamPlace (memStreamSeek 0 0)
  return encoding

/-- The statements of `compress` for the remaining bytes. -/
def keepRemaining (data : List UInt8) (maxBytes remBytes : ℤ) :
    PyRoutine (HuffmanCompressor κ μ) Unit := do
  if remBytes > 0 then
    Routine.within istreamPlace (memStreamWrite (pySlice data maxBytes (maxBytes + remBytes)))

/-- `HuffmanCompressor.compress` -/
def compress (data : List UInt8) : PyRoutine (HuffmanCompressor κ μ) (List UInt8) := do
  let self ← Routine.get
  if self.flushed then
    -- `encoding()` calls a bytes object
    Routine.fail (.typeError "'bytes' object is not callable")
  else
    let bufBytes ← Routine.within istreamPlace memStreamLen
    let allBytes := bufBytes + data.length
    let numBlocks ← floorDiv allBytes self.blocksize
    let numBytes := numBlocks * self.blocksize
    let maxBytes : ℤ := numBytes - bufBytes
    let remBytes : ℤ := data.length - maxBytes
    let encoding ← if numBlocks > 0 then encodeAvailable data numBytes maxBytes else pure []
    keepRemaining data maxBytes remBytes
    return encoding

/-- The call of a compressor that is not flushed and has `kept` bytes in its input stream, where
the chunk completes `numBlocks` blocks. -/
theorem compress_of_ne {c : HuffmanCompressor κ μ} (hopen : c.flushed = false) {kept : ℕ}
    (hlen : Routine.within istreamPlace memStreamLen c = .ok (.ok kept, c))
    (hblocksize : c.blocksize ≠ 0) (data : List UInt8) {numBlocks : ℕ}
    (hnum : (kept + data.length) / c.blocksize = numBlocks) {maxBytes remBytes : ℤ}
    (hmax : maxBytes = (numBlocks * c.blocksize : ℕ) - (kept : ℤ))
    (hrem : remBytes = data.length - maxBytes) :
    compress data c = (do
      let encoding ←
        if numBlocks > 0 then encodeAvailable data (numBlocks * c.blocksize) maxBytes else pure []
      keepRemaining data maxBytes remBytes
      return encoding : PyRoutine (HuffmanCompressor κ μ) (List UInt8)) c := by
  subst hmax hrem hnum
  rw [compress, Routine.get_bind_apply, hopen, if_neg Bool.false_ne_true, Routine.bind_of_ok hlen,
    floorDiv_of_ne hblocksize, Routine.pure_bind_apply]

/-- Nothing can be divided into blocks of zero bytes. -/
theorem compress_of_zero {c : HuffmanCompressor κ μ} (hopen : c.flushed = false) {kept : ℕ}
    (hlen : Routine.within istreamPlace memStreamLen c = .ok (.ok kept, c))
    (hblocksize : c.blocksize = 0) (data : List UInt8) :
    compress data c = .ok (.error .zeroDivisionError, c) := by
  rw [compress, Routine.get_bind_apply, hopen, if_neg Bool.false_ne_true, Routine.bind_of_ok hlen,
    hblocksize, floorDiv_zero]
  rfl

/-- `HuffmanCompressor.flush` -/
def flush : PyRoutine (HuffmanCompressor κ μ) (List UInt8) := do
  if (← Routine.get).flushed then
    return []
  else
    let length ← Routine.within istreamPlace memStreamLen
    setLength length
    let encoding ←
      if length > 0 then do
        encode
        Routine.within ostreamPlace memStreamGetvalue
      else
        pure []
    Routine.within istreamPlace memStreamClose
    Routine.within ostreamPlace memStreamClose
    Routine.modify fun c => { c with flushed := true }
    return encoding

end HuffmanCompressor

/-! ## `HuffmanDecompressor` -/

/-- `HuffmanDecompressor`, with the heap that the library allocates from. -/
structure HuffmanDecompressor (κ μ : Type) where
  istream : κ
  ostream : κ
  config : HufConfig μ μ
  heap : Heap

namespace HuffmanDecompressor

variable {κ μ : Type}

/-- The input stream of the decompressor. -/
def istreamPlace : Place Fault (HuffmanDecompressor κ μ) κ where
  load d := .ok d.istream
  store istream d := { d with istream }

/-- The output stream of the decompressor. -/
def ostreamPlace : Place Fault (HuffmanDecompressor κ μ) κ where
  load d := .ok d.ostream
  store ostream d := { d with ostream }

/-- `self._config.length = length` -/
def setLength (length : ℕ) : PyRoutine (HuffmanDecompressor κ μ) Unit :=
  Routine.modify fun d => { d with config := { d.config with length } }

variable [MemoryStreams κ μ]

/-- What the library sees of the decompressor. -/
def world : Place Fault (HuffmanDecompressor κ μ) (World μ μ) where
  load d := do
    return ⟨← MemoryStreams.stream.load d.istream, ← MemoryStreams.stream.load d.ostream, d.heap⟩
  store w d := { d with
    istream := MemoryStreams.stream.store w.input d.istream
    ostream := MemoryStreams.stream.store w.output d.ostream
    heap := w.heap }

/-- `HuffmanDecompressor.__init__`, with memory streams of type `κ`. -/
def init (κ : Type) [MemoryStreams κ μ] (memlimit : ℕ) (heap : Heap) :
    HuffmanDecompressor κ μ where
  istream := MemoryStreams.memopen memlimit
  ostream := MemoryStreams.memopen memlimit
  config := ⟨0, 0, 0, 0, some (MemoryStreams.readWriter κ), some (MemoryStreams.readWriter κ)⟩
  heap := heap

/-- `HuffmanDecompressor.decompress` -/
def decompress (data : List UInt8) : PyRoutine (HuffmanDecompressor κ μ) (List UInt8) := do
  Routine.within istreamPlace (memStreamWrite data)
  let length ← Routine.within istreamPlace memStreamLen
  setLength length
  let config := (← Routine.get).config
  Routine.within world (unwrapExc (hufDecode (some config)) "Failed to decode the data")
  let decoding ← Routine.within ostreamPlace memStreamGetvalue
  Routine.within ostreamPlace (memStreamSeek 0 0)
  return decoding

/-- `HuffmanDecompressor.close` -/
def close : PyRoutine (HuffmanDecompressor κ μ) Unit := do
  Routine.within istreamPlace memStreamClose
  Routine.within ostreamPlace memStreamClose

end HuffmanDecompressor

/-! ## `HuffmanFile` -/

/-- The modes of `HuffmanFile.__init__`. -/
inductive OpenMode
  | read
  | write
  | exclusive
  | append
  deriving DecidableEq

/-- `HuffmanFile`, that is its `_mode` with the attributes it has in that mode: `_fp` and
`_decompressor` or `_compressor`. -/
inductive HuffmanFile (κ μ : Type)
  | closed
  | reading (fp : Fifo) (decompressor : HuffmanDecompressor κ μ)
  | writing (fp : Fifo) (compressor : HuffmanCompressor κ μ)

namespace HuffmanFile

variable {κ μ : Type}

/-- `HuffmanFile.__init__` of a file object. -/
def init (κ : Type) [MemoryStreams κ μ] (fp : Fifo) (mode : OpenMode) (blocksize memlimit : ℕ)
    (heap : Heap) : HuffmanFile κ μ :=
  match mode with
  | .read => .reading fp (HuffmanDecompressor.init κ memlimit heap)
  | _ => .writing fp (HuffmanCompressor.init κ blocksize heap)

/-- `self._fp` of a file that is read. -/
def fpPlace : Place Fault (HuffmanFile κ μ) Fifo where
  load
    | .reading fp _ => .ok fp
    | _ => .error .nullPointer
  store fp
    | .reading _ decompressor => .reading fp decompressor
    | f => f

/-- `self._decompressor` -/
def decompressorPlace : Place Fault (HuffmanFile κ μ) (HuffmanDecompressor κ μ) where
  load
    | .reading _ decompressor => .ok decompressor
    | _ => .error .nullPointer
  store decompressor
    | .reading fp _ => .reading fp decompressor
    | f => f

/-- `HuffmanFile._check_not_closed` -/
def checkNotClosed : PyRoutine (HuffmanFile κ μ) Unit := do
  match ← Routine.get with
  | .closed => Routine.fail (.valueError "I/O operation on closed file")
  | _ => pure ()

/-- `HuffmanFile.readable` -/
def readable : PyRoutine (HuffmanFile κ μ) Bool := do
  checkNotClosed
  match ← Routine.get with
  | .reading _ _ => return true
  | _ => return false

/-- `HuffmanFile._check_can_read` -/
def checkCanRead : PyRoutine (HuffmanFile κ μ) Unit := do
  if ¬ (← readable) then
    Routine.fail (.unsupportedOperation "File not open for reading")

/-- `read` of the file underneath: the next bytes, as many as there are. -/
def fpRead (size : ℕ) : PyRoutine Fifo (List UInt8) := do
  let data := (← Routine.get).unread.take size
  Routine.modify (Fifo.advance size)
  return data

/-- `HuffmanFile.read`, where a size that is omitted is -1. -/
def read [MemoryStreams κ μ] (defaultBufferSize : ℕ) (size : ℤ) :
    PyRoutine (HuffmanFile κ μ) (List UInt8) := do
  checkCanRead
  let size := if size < 0 then defaultBufferSize else size.toNat
  let data ← Routine.within fpPlace (fpRead size)
  Routine.within decompressorPlace (HuffmanDecompressor.decompress data)

/-- `self._fp` of a file that is written. -/
def writtenFpPlace : Place Fault (HuffmanFile κ μ) Fifo where
  load
    | .writing fp _ => .ok fp
    | _ => .error .nullPointer
  store fp
    | .writing _ compressor => .writing fp compressor
    | f => f

/-- `self._compressor` -/
def compressorPlace : Place Fault (HuffmanFile κ μ) (HuffmanCompressor κ μ) where
  load
    | .writing _ compressor => .ok compressor
    | _ => .error .nullPointer
  store compressor
    | .writing fp _ => .writing fp compressor
    | f => f

/-- `HuffmanFile.writable` -/
def writable : PyRoutine (HuffmanFile κ μ) Bool := do
  checkNotClosed
  match ← Routine.get with
  | .writing _ _ => return true
  | _ => return false

/-- `HuffmanFile._check_can_write` -/
def checkCanWrite : PyRoutine (HuffmanFile κ μ) Unit := do
  if ¬ (← writable) then
    Routine.fail (.unsupportedOperation "File not open for writing")

/-- `write` of the file underneath. -/
def fpWrite (data : List UInt8) : PyRoutine Fifo Unit := Routine.modify (Fifo.write data)

/-- `HuffmanFile.write` of bytes. -/
def write [MemoryStreams κ μ] (data : List UInt8) : PyRoutine (HuffmanFile κ μ) ℕ := do
  checkCanWrite
  let compressed ← Routine.within compressorPlace (HuffmanCompressor.compress data)
  Routine.within writtenFpPlace (fpWrite compressed)
  return data.length

/-- `HuffmanFile.seekable` -/
def seekable : PyRoutine (HuffmanFile κ μ) Bool := pure false

/-- `HuffmanFile.fileno`, with what `fileno` of the file underneath leaves with. -/
def fileno (descriptor : Except PyException ℕ) : PyRoutine (HuffmanFile κ μ) ℕ := do
  checkNotClosed
  match descriptor with
  | .ok number => return number
  | .error exception => Routine.fail exception

end HuffmanFile

/-- A `HuffmanFile` with its `_closefp`, and the file underneath once it has let go of it:
what that one stores, and whether it was closed. -/
structure FileHandle (κ μ : Type) where
  file : HuffmanFile κ μ
  closefp : Bool
  released : Option (Fifo × Bool)

namespace FileHandle

variable {κ μ : Type}

/-- `HuffmanFile.__init__`, of a file that it has opened itself or of a file object. -/
def init (κ : Type) [MemoryStreams κ μ] (fp : Fifo) (mode : OpenMode) (closefp : Bool)
    (blocksize memlimit : ℕ) (heap : Heap) : FileHandle κ μ :=
  ⟨HuffmanFile.init κ fp mode blocksize memlimit heap, closefp, none⟩

theorem init_of_ne_read [MemoryStreams κ μ] (fp : Fifo) {mode : OpenMode} (hmode : mode ≠ .read)
    (closefp : Bool) (blocksize memlimit : ℕ) (heap : Heap) :
    init κ fp mode closefp blocksize memlimit heap =
      ⟨.writing fp (HuffmanCompressor.init κ blocksize heap), closefp, none⟩ := by
  cases mode with
  | read => exact absurd rfl hmode
  | write | exclusive | append => rfl

/-- The `HuffmanFile` itself. -/
def filePlace : Place Fault (FileHandle κ μ) (HuffmanFile κ μ) where
  load h := .ok h.file
  store file h := { h with file }

/-- `HuffmanFile.closed` -/
def closed : PyRoutine (FileHandle κ μ) Bool := do
  match (← Routine.get).file with
  | .closed => return true
  | _ => return false

/-- The `finally` of `close`: close the file underneath if it was opened with this one, and
forget it. -/
def letGo (h : FileHandle κ μ) : FileHandle κ μ :=
  match h.file with
  | .closed => h
  | .reading fp _ => ⟨.closed, false, some (fp, h.closefp)⟩
  | .writing fp _ => ⟨.closed, false, some (fp, h.closefp)⟩

variable [MemoryStreams κ μ]

/-- The `try` of `close`. -/
def finish : PyRoutine (HuffmanFile κ μ) Unit := do
  match ← Routine.get with
  | .closed => pure ()
  | .reading _ _ => Routine.within HuffmanFile.decompressorPlace HuffmanDecompressor.close
  | .writing _ _ =>
    let data ← Routine.within HuffmanFile.compressorPlace HuffmanCompressor.flush
    Routine.within HuffmanFile.writtenFpPlace (HuffmanFile.fpWrite data)

/-- `HuffmanFile.close` -/
def close : PyRoutine (FileHandle κ μ) Unit := do
  if ← closed then
    return ()
  else
    Routine.ensuring (Routine.within filePlace finish) (Routine.modify letGo)

end FileHandle

/-- What the file underneath stores. -/
def FileHandle.stored {κ μ : Type} (h : FileHandle κ μ) : List UInt8 :=
  match h.file, h.released with
  | .reading fp _, _ => fp.stored
  | .writing fp _, _ => fp.stored
  | .closed, some (fp, _) => fp.stored
  | .closed, none => []

/-- What the caller of a file sees of it: what the file underneath stores, and that file itself
once this one has let go of it. -/
def FileHandle.shown {κ μ : Type} (h : FileHandle κ μ) : List UInt8 × Option (Fifo × Bool) :=
  (h.stored, h.released)

/-! ## The functions of the module -/

namespace Huffmanfile

variable {μ : Type}

/-- `compress` -/
def compress (κ : Type) [MemoryStreams κ μ] (data : List UInt8) (blocksize : ℕ) (heap : Heap) :
    Outcome Fault PyException (HuffmanCompressor κ μ) (List UInt8) :=
  (do
    let first ← HuffmanCompressor.compress data
    let last ← HuffmanCompressor.flush
    return first ++ last) (HuffmanCompressor.init κ blocksize heap)

/-- `decompress` -/
def decompress (κ : Type) [MemoryStreams κ μ] (data : List UInt8) (memlimit : ℕ) (heap : Heap) :
    Outcome Fault PyException (HuffmanDecompressor κ μ) (List UInt8) :=
  (do
    let dataOut ← HuffmanDecompressor.decompress data
    HuffmanDecompressor.close
    return dataOut) (HuffmanDecompressor.init κ memlimit heap)

end Huffmanfile

end LibHuffman
