/-
# The streams of the module

A `MemStream` answers as the ideal stream does, and a class of the module that uses two of
them does what it does on ideal streams, unless a write copies past the end of its block. The
class never uses a stream that it has closed.
-/

import LibHuffman.HuffmanFile.Native
import LibHuffman.Likeness.Decoder
import LibHuffman.Likeness.Encoder
import LibHuffman.Likeness.Memory

namespace LibHuffman.Native

open Foundation

variable {limit : ℕ} {safe : Prop}

/-! ## Exceptions -/

section

variable {Stray : Fault → Prop} {σ τ α : Type} {R : σ → τ → Prop} {V : α → Prop}

theorem unwrapExc_alike {x : CRoutine σ α} {y : CRoutine τ α} {s : σ} {t : τ} (message : String)
    (h : Alike Stray R V (x s) (y t)) :
    Alike Stray R V (unwrapExc x message s) (unwrapExc y message t) := by
  generalize hx : x s = outcome at h
  generalize hy : y t = other at h
  cases h with
  | stray hs =>
      rw [unwrapExc_of_fault hx]
      exact .stray hs
  | fault fault =>
      rw [unwrapExc_of_fault hx, unwrapExc_of_fault hy]
      exact .fault fault
  | @leave r s' t' hvalue hr =>
      cases r with
      | error code =>
          rw [unwrapExc_of_error hx, unwrapExc_of_error hy]
          exact .leave (fun _ ha => by cases ha) hr
      | ok a =>
          rw [unwrapExc_of_ok hx, unwrapExc_of_ok hy]
          apply Alike.leave
          · rintro _ ⟨⟩
            exact hvalue a rfl
          · exact hr

theorem unwrapExc_mirrors {x : CRoutine σ α} {y : CRoutine τ α} (message : String)
    (h : Mirrors Stray R x y V) :
    Mirrors Stray R (unwrapExc x message) (unwrapExc y message) V :=
  fun s t hr => unwrapExc_alike message (h s t hr)

end

/-- A slice is not longer than the distance of its ends. -/
theorem length_pySlice_le {α : Type} (xs : List α) (start : ℤ) (n : ℕ) :
    (pySlice xs start (start + n)).length ≤ n := by
  rw [pySlice, List.length_drop, List.length_take, sliceIndex, sliceIndex]
  split <;> split <;> omega

theorem length_pySlice_le_length {α : Type} (xs : List α) (start stop : ℤ) :
    (pySlice xs start stop).length ≤ xs.length := by
  rw [pySlice, List.length_drop, List.length_take]
  omega

/-! ## One stream -/

/-- A `MemStream` that is open, in the state of an ideal one, of a block whose capacity is as
`P` says. -/
def Open (P : ℕ → Prop) (o : StreamPointer) (fifo : Fifo) : Prop :=
  ∃ s, o = some s ∧ Holding P s fifo

section

variable {α : Type} {Stray : Fault → Prop} {V : α → Prop} {P Q : ℕ → Prop} {cap : ℕ}
  {o : StreamPointer} {fifo : Fifo}

theorem open_newMemStream {capacity : ℕ} (h : P capacity) :
    Open P (some (newMemStream capacity)) Fifo.empty :=
  ⟨_, rfl, holding_newMemStream h⟩

theorem Open.mono (h : Open P o fifo) (hPQ : ∀ cap, P cap → Q cap) : Open Q o fifo := by
  rcases h with ⟨s, rfl, hs⟩
  exact ⟨s, rfl, hs.mono hPQ⟩

theorem Open.capacity (h : Open P o fifo) : ∃ cap, P cap ∧ Open (· = cap) o fifo := by
  rcases h with ⟨s, rfl, hs⟩
  exact ⟨s.mem.cap, hs.capacity, s, rfl, hs.toStores, rfl⟩

/-- A function of the stream behind the pointer. -/
theorem this_alike {x : CRoutine MemStream α} {y : CRoutine Fifo α} {s : MemStream}
    (h : Alike Stray (Holding P) V (x s) (y fifo)) :
    Alike Stray (Open P) V (Routine.within this x (some s)) (y fifo) := by
  generalize hx : x s = outcome at h
  generalize y fifo = other at h
  cases h with
  | stray hs =>
      rw [@Routine.within_of_fault _ _ _ _ _ this x (some s) s _ rfl hx]
      exact .stray hs
  | fault fault =>
      rw [@Routine.within_of_fault _ _ _ _ _ this x (some s) s _ rfl hx]
      exact .fault fault
  | leave hvalue hs =>
      rw [@Routine.within_of_ok _ _ _ _ _ this x (some s) s _ _ rfl hx]
      exact .leave hvalue ⟨_, rfl, hs⟩

/-- A write that the stream makes room for. -/
theorem memStreamWrite_fits (h : Open (· = cap) o fifo) {data : List UInt8}
    (hroom : MemCall.Fits cap fifo.stored.length (.write data)) :
    Alike Stray (Open (· = MemCall.capAfter cap fifo.stored.length (.write data)))
      (fun _ => True) (memStreamWrite data o) (memStreamWrite data fifo) := by
  rcases h with ⟨s, rfl, hs⟩
  obtain rfl : s.mem.cap = cap := hs.capacity
  rw [hs.len] at hroom ⊢
  apply unwrapExc_alike
  apply this_alike
  exact memwrite_alike hs data hroom rfl

/-- A write that it does not make room for. -/
theorem memStreamWrite_overruns (h : Open (· = cap) o fifo) {data : List UInt8}
    (hroom : ¬ MemCall.Fits cap fifo.stored.length (.write data)) :
    memStreamWrite data o = .error .outOfBounds := by
  rcases h with ⟨s, rfl, hs⟩
  obtain rfl : s.mem.cap = cap := hs.capacity
  rw [hs.len] at hroom
  apply unwrapExc_of_fault
  exact Routine.within_of_fault rfl (memwrite_of_not_fits hs.toStores hroom)

theorem Open.length_le (h : Open (· = cap) o fifo) : fifo.stored.length ≤ cap := by
  rcases h with ⟨s, rfl, hs⟩
  obtain rfl : s.mem.cap = cap := hs.capacity
  rw [hs.len]
  exact hs.len_le

/-- Data that is not longer than the block fits, and so does any data in an empty stream. -/
theorem fits_of_le (h : Open (· = cap) o fifo) {data : List UInt8}
    (hdata : data.length ≤ cap ∨ fifo.stored = []) :
    MemCall.Fits cap fifo.stored.length (.write data) := by
  have hlen := h.length_le
  rw [MemCall.Fits]
  rcases hdata with hle | hempty
  · omega
  · rw [hempty, List.length_nil]
    omega

/-- A write that fits if it has to be safe. -/
theorem memStreamWrite_alike (h : Open (limit ≤ ·) o fifo) {data : List UInt8}
    (hdata : safe → data.length ≤ limit ∨ fifo.stored = []) :
    Alike (Overrun safe) (Open (limit ≤ ·)) (fun _ => True) (memStreamWrite data o)
      (memStreamWrite data fifo) := by
  rcases h.capacity with ⟨cap, hcap, h⟩
  by_cases hroom : MemCall.Fits cap fifo.stored.length (.write data)
  · apply (memStreamWrite_fits h hroom).mono ?_ fun _ h => h
    exact fun _ _ h => h.mono fun _ hnew => hnew ▸ hcap.trans (le_capAfter _ _ _)
  · rw [memStreamWrite_overruns h hroom]
    refine .stray ⟨fun hs => hroom (fits_of_le h ?_), rfl⟩
    exact (hdata hs).imp_left fun hle => hle.trans hcap

theorem memStreamLen_eq (h : Open P o fifo) :
    memStreamLen o = .ok (.ok fifo.stored.length, o) ∧
      memStreamLen fifo = .ok (.ok fifo.stored.length, fifo) := by
  rcases h with ⟨s, rfl, hs⟩
  exact ⟨by rw [hs.len]; rfl, rfl⟩

theorem memStreamLen_mirrors :
    Mirrors Stray (Open P) memStreamLen memStreamLen fun _ => True := by
  intro o fifo h
  rw [(memStreamLen_eq h).1, (memStreamLen_eq h).2]
  exact .leave (fun _ _ => trivial) h

theorem memStreamGetvalue_mirrors :
    Mirrors Stray (Open P) memStreamGetvalue memStreamGetvalue fun _ => True := by
  intro o fifo h
  have hlen := (memStreamLen_eq h).1
  rcases h with ⟨s, rfl, hs⟩
  have hblock := hs.block
  have hslice : slice s.mem.buf 0 fifo.stored.length = .ok fifo.stored := by
    rw [hs.len, slice_of_le (by have := hs.len_le; omega), List.drop_zero, hs.stored]
  have hrun : memStreamGetvalue (some s) = .ok (.ok fifo.stored, some s) := by
    rw [memStreamGetvalue, Routine.bind_of_ok hlen]
    show Routine.demand (slice s.mem.buf 0 fifo.stored.length) (some s) = _
    rw [hslice]
    rfl
  rw [hrun]
  exact .leave (fun _ _ => trivial) ⟨s, rfl, hs⟩

/-- A stream that is rewound is empty, and keeps its block. -/
theorem memStreamSeek_alike (h : Open P o fifo) :
    Alike Stray (fun o fifo => Open P o fifo ∧ fifo.stored = []) (fun _ => True)
      (memStreamSeek 0 0 o) (memStreamSeek 0 0 fifo) := by
  rcases h with ⟨s, rfl, hs⟩
  rcases hufMemrewind_eq hs.toStores with ⟨s', hrun, hstores, -, hcap⟩
  cases hrun
  exact .leave (fun _ _ => trivial) ⟨⟨_, rfl, hstores, hs.capacity⟩, rfl⟩

theorem memStreamSeek_mirrors :
    Mirrors Stray (Open P) (memStreamSeek 0 0) (memStreamSeek 0 0) fun _ => True :=
  fun _ _ h => (memStreamSeek_alike h).mono (fun _ _ h => h.1) fun _ h => h

end

/-! ## The compressor -/

/-- The front of a chunk, with which `compress` completes the last whole block of the `kept`
bytes in the input stream. -/
def front (blocksize kept : ℕ) (data : List UInt8) : List UInt8 :=
  let numBlocks := (kept + data.length) / blocksize
  if numBlocks > 0 then pySlice data 0 ((numBlocks * blocksize : ℕ) - kept : ℤ) else []

theorem length_front_le (blocksize kept : ℕ) (data : List UInt8) :
    (front blocksize kept data).length ≤ data.length := by
  rw [front]
  split
  · exact length_pySlice_le_length data 0 _
  · exact Nat.zero_le _

/-- A compressor that is not flushed. Its input stream has a block of `cap` bytes, which is not
less than a block of the data, and its output stream has one of at least `limit` bytes. -/
structure Working (limit cap : ℕ) (safe : Prop) (c : HuffmanCompressor StreamPointer MemStream)
    (c' : HuffmanCompressor Fifo Fifo) : Prop where
  blocksize : c'.blocksize = c.blocksize
  blocksize_le : c.blocksize ≤ cap
  flushed : c.flushed = false
  flushed' : c'.flushed = false
  istream : Open (· = cap) c.istream c'.istream
  ostream : Open (limit ≤ ·) c.ostream c'.ostream
  config : ConfigsAlike (memSourceLikeness (Overrun safe) (· = cap)) (memLikeness limit safe)
    c.config c'.config
  heap : c'.heap = c.heap

/-- Two compressors, which both are at work or both flushed. -/
inductive CompressorsAlike (limit : ℕ) (safe : Prop)
    (c : HuffmanCompressor StreamPointer MemStream) (c' : HuffmanCompressor Fifo Fifo) : Prop
  | working {cap : ℕ} (hcap : limit ≤ cap) (h : Working limit cap safe c c')
  | flushed (h : c.flushed = true) (h' : c'.flushed = true)

namespace HuffmanCompressor

open LibHuffman.HuffmanCompressor

variable {cap : ℕ} {c : HuffmanCompressor StreamPointer MemStream}
  {c' : HuffmanCompressor Fifo Fifo}

theorem working_init (blocksize : ℕ) (heap : Heap) :
    Working blocksize blocksize safe (init StreamPointer blocksize heap)
      (init Fifo blocksize heap) where
  blocksize := rfl
  blocksize_le := Nat.le_refl _
  flushed := rfl
  flushed' := rfl
  istream := open_newMemStream rfl
  ostream := open_newMemStream (Nat.le_refl _)
  config := ⟨rfl, rfl, rfl, rfl, .some ⟨rfl, rfl⟩, .some ⟨rfl, rfl⟩, rfl, fun _ => Nat.zero_le _⟩
  heap := rfl

/-- Other contents of the input stream, in a block that is not smaller. -/
theorem working_of_istream (h : Working limit cap safe c c') {cap' : ℕ} (hcap : cap ≤ cap')
    {o : StreamPointer} {fifo : Fifo} (ho : Open (· = cap') o fifo) :
    Working limit cap' safe { c with istream := o } { c' with istream := fifo } where
  blocksize := h.blocksize
  blocksize_le := Nat.le_trans h.blocksize_le hcap
  flushed := h.flushed
  flushed' := h.flushed'
  istream := ho
  ostream := h.ostream
  config := ⟨h.config.length, h.config.blocksize, h.config.readerBufferSize,
    h.config.writerBufferSize, h.config.reader, h.config.writer, h.config.readerAllowed,
    h.config.writerAllowed⟩
  heap := h.heap

/-- The empty input stream that a run of the encoder leaves behind. -/
def Emptied (limit cap : ℕ) (safe : Prop) (c : HuffmanCompressor StreamPointer MemStream)
    (c' : HuffmanCompressor Fifo Fifo) : Prop :=
  Working limit cap safe c c' ∧ c'.istream.stored = []

theorem ostream_corresponds :
    Corresponds ostreamPlace ostreamPlace (Working limit cap safe) (Open (limit ≤ ·)) :=
  fun _ _ h => .inr ⟨_, _, rfl, rfl, h.ostream, fun _ _ hs => { h with ostream := hs }⟩

theorem world_corresponds :
    Corresponds world world (Working limit cap safe)
      (WorldsAlike (memSourceLikeness (Overrun safe) (· = cap)) (memLikeness limit safe)) := by
  rintro ⟨_, _, istream, ostream, _, _⟩ c' h
  rcases h.istream with ⟨s, rfl, hs⟩
  rcases h.ostream with ⟨t, rfl, ht⟩
  refine .inr ⟨_, _, rfl, rfl, ⟨hs, ht, h.heap⟩, fun w w' hw => ?_⟩
  exact { h with
    istream := ⟨_, rfl, hw.input⟩
    ostream := ⟨_, rfl, hw.output⟩
    heap := hw.heap }

theorem setLength_mirrors {Stray : Fault → Prop} (length : ℕ) :
    Mirrors Stray (Working limit cap safe) (setLength length) (setLength length) fun _ => True :=
  Mirrors.modify fun _ _ h => { h with config := { h.config with length := rfl } }

theorem encode_mirrors (hlimit : safe → 2 * hufBtreeLen ≤ limit) :
    Mirrors (Overrun safe) (Working limit cap safe) encode encode fun _ => True := by
  apply Mirrors.get_bind
  intro c c' h
  apply Mirrors.within world_corresponds
  apply unwrapExc_mirrors
  apply hufEncode_mirrors _ (.some h.config)
  exact fun hs => (hlimit hs).trans (Nat.le_max_left _ _)

/-- The bytes that are kept are written to the block as it is. -/
theorem keepRemaining_alike {Stray : Fault → Prop} (h : Working limit cap safe c c')
    {data : List UInt8} {maxBytes remBytes : ℤ}
    (hfit : c'.istream.stored.length + (pySlice data maxBytes (maxBytes + remBytes)).length ≤ cap) :
    Alike Stray (Working limit cap safe) (fun _ => True) (keepRemaining data maxBytes remBytes c)
      (keepRemaining data maxBytes remBytes c') := by
  apply Alike.ite
  · intro _
    have hsame : MemCall.capAfter cap c'.istream.stored.length
        (.write (pySlice data maxBytes (maxBytes + remBytes))) = cap := if_pos hfit
    have hwrite := @memStreamWrite_fits Stray cap _ _ h.istream
      (pySlice data maxBytes (maxBytes + remBytes)) (fits_of_le h.istream (.inl (by omega)))
    rw [hsame] at hwrite
    exact hwrite.within rfl rfl fun _ _ hs => { h with istream := hs }
  · exact fun _ => .leave (fun _ _ => trivial) h

/-- At the end of a run of the encoder both streams are rewound. -/
theorem rewind_alike {Stray : Fault → Prop} (h : Working limit cap safe c c') {α : Type}
    {V : α → Prop} {x : PyRoutine (HuffmanCompressor StreamPointer MemStream) α}
    {y : PyRoutine (HuffmanCompressor Fifo Fifo) α}
    (hnext : ∀ c c', Emptied limit cap safe c c' →
      Alike Stray (Working limit cap safe) V (x c) (y c')) :
    Alike Stray (Working limit cap safe) V
      ((do
        Routine.within istreamPlace (memStreamSeek 0 0)
        Routine.within ostreamPlace (memStreamSeek 0 0)
        x) c)
      ((do
        Routine.within istreamPlace (memStreamSeek 0 0)
        Routine.within ostreamPlace (memStreamSeek 0 0)
        y) c') := by
  have hseek : Alike Stray (Emptied limit cap safe) (fun _ => True)
      (Routine.within istreamPlace (memStreamSeek 0 0) c)
      (Routine.within istreamPlace (memStreamSeek 0 0) c') :=
    (memStreamSeek_alike h.istream).within rfl rfl fun _ _ hs =>
      ⟨{ h with istream := hs.1 }, hs.2⟩
  apply hseek.bind fun _ _ h => h.1
  intro _ c c' _ h
  have hseek' : Alike Stray (Emptied limit cap safe) (fun _ => True)
      (Routine.within ostreamPlace (memStreamSeek 0 0) c)
      (Routine.within ostreamPlace (memStreamSeek 0 0) c') :=
    (memStreamSeek_mirrors _ _ h.1.ostream).within rfl rfl fun _ _ hs =>
      ⟨{ h.1 with ostream := hs }, h.2⟩
  apply hseek'.bind fun _ _ h => h.1
  exact fun _ c c' _ h => hnext c c' h

/-- At least one block, and then the remaining bytes. -/
theorem encodeAvailable_alike (hlimit : safe → 2 * hufBtreeLen ≤ limit)
    (h : Working limit cap safe c c') {data : List UInt8} {maxBytes remBytes : ℤ}
    (hroom : MemCall.Fits cap c'.istream.stored.length (.write (pySlice data 0 maxBytes)))
    (hrem : (pySlice data maxBytes (maxBytes + remBytes)).length ≤ cap) (numBytes : ℕ) :
    Alike (Overrun safe)
      (Working limit (MemCall.capAfter cap c'.istream.stored.length
        (.write (pySlice data 0 maxBytes))) safe) (fun _ => True)
      ((do
        let encoding ← encodeAvailable data numBytes maxBytes
        keepRemaining data maxBytes remBytes
        return encoding : PyRoutine (HuffmanCompressor StreamPointer MemStream) (List UInt8)) c)
      ((do
        let encoding ← encodeAvailable data numBytes maxBytes
        keepRemaining data maxBytes remBytes
        return encoding : PyRoutine (HuffmanCompressor Fifo Fifo) (List UInt8)) c') := by
  have hcap := le_capAfter cap c'.istream.stored.length (pySlice data 0 maxBytes)
  have hwrite := @memStreamWrite_fits (Overrun safe) cap _ _ h.istream _ hroom
  generalize MemCall.capAfter cap c'.istream.stored.length (.write (pySlice data 0 maxBytes)) = cap'
    at hcap hwrite ⊢
  rw [encodeAvailable, encodeAvailable]
  simp only [Routine.bind_assoc]
  apply (hwrite.within rfl rfl fun _ _ hs => working_of_istream h hcap hs).bind fun _ _ h => h
  intro _ c c' _ h
  apply (setLength_mirrors numBytes c c' h).bind fun _ _ h => h
  intro _ c c' _ h
  apply (encode_mirrors hlimit c c' h).bind fun _ _ h => h
  intro _ c c' _ h
  apply (memStreamGetvalue_mirrors.within ostream_corresponds c c' h).bind fun _ _ h => h
  intro encoding c c' _ h
  apply rewind_alike h
  intro c c' h
  have hfit : c'.istream.stored.length +
      (pySlice data maxBytes (maxBytes + remBytes)).length ≤ cap' := by
    rw [h.2, List.length_nil]
    omega
  exact (keepRemaining_alike h.1 hfit).bind_mirrors fun _ _ => Mirrors.pure trivial

theorem istreamLen_eq (h : Working limit cap safe c c') :
    Routine.within istreamPlace memStreamLen c = .ok (.ok c'.istream.stored.length, c) ∧
      Routine.within istreamPlace memStreamLen c' = .ok (.ok c'.istream.stored.length, c') :=
  ⟨Routine.within_of_ok rfl (memStreamLen_eq h.istream).1,
    Routine.within_of_ok rfl (memStreamLen_eq h.istream).2⟩

/-- What remains behind the whole blocks is shorter than a block. -/
theorem exists_remaining {blocksize kept count numBlocks : ℕ} (hpos : blocksize ≠ 0)
    (hnum : (kept + count) / blocksize = numBlocks) :
    ∃ n : ℕ, (count - ((numBlocks * blocksize : ℕ) - kept : ℤ) : ℤ) = n ∧ n < blocksize := by
  have hdivision := Nat.div_add_mod (kept + count) blocksize
  have hmod := Nat.mod_lt (kept + count) (Nat.pos_of_ne_zero hpos)
  rw [hnum, Nat.mul_comm] at hdivision
  exact ⟨(kept + count) % blocksize, by omega, hmod⟩

/-- A call of `compress`, where the front of the chunk has room in the input stream. -/
theorem compress_fits (hlimit : safe → 2 * hufBtreeLen ≤ limit) (h : Working limit cap safe c c')
    {data : List UInt8} (hroom : MemCall.Fits cap c'.istream.stored.length
      (.write (front c.blocksize c'.istream.stored.length data))) :
    Alike (Overrun safe)
      (Working limit (MemCall.capAfter cap c'.istream.stored.length
        (.write (front c.blocksize c'.istream.stored.length data))) safe) (fun _ => True)
      (compress data c) (compress data c') := by
  have hnone (hle : c'.istream.stored.length ≤ cap) :
      MemCall.capAfter cap c'.istream.stored.length (.write []) = cap := if_pos hle
  have hstored := h.istream.length_le
  rcases istreamLen_eq h with ⟨hlen, hlen'⟩
  by_cases hzero : c.blocksize = 0
  · rw [compress_of_zero h.flushed hlen hzero,
      compress_of_zero h.flushed' hlen' (h.blocksize.trans hzero), front, hzero, Nat.div_zero,
      if_neg (Nat.lt_irrefl 0), hnone hstored]
    exact .leave (fun _ ha => by cases ha) h
  generalize hnum : (c'.istream.stored.length + data.length) / c.blocksize = numBlocks
  rcases exists_remaining hzero hnum with ⟨rest, hrest, hlt⟩
  have hnum' : (c'.istream.stored.length + data.length) / c'.blocksize = numBlocks := by
    rwa [h.blocksize]
  rw [front, hnum] at hroom ⊢
  rw [compress_of_ne h.flushed hlen hzero data hnum rfl rfl,
    compress_of_ne h.flushed' hlen' (h.blocksize ▸ hzero) data hnum' rfl rfl, h.blocksize]
  by_cases hblocks : numBlocks > 0
  · rw [if_pos hblocks] at hroom ⊢
    rw [if_pos hblocks, if_pos hblocks]
    apply encodeAvailable_alike hlimit h hroom
    rw [hrest]
    have := h.blocksize_le
    exact (length_pySlice_le data _ rest).trans (by omega)
  · rw [if_neg hblocks, if_neg hblocks, if_neg hblocks, Routine.pure_bind_apply,
      Routine.pure_bind_apply, hnone hstored]
    -- without a whole block all of the data is shorter than one
    have hshort : c'.istream.stored.length + data.length < c.blocksize := by
      apply (Nat.div_eq_zero_iff_lt (Nat.pos_of_ne_zero hzero)).mp
      omega
    have hslice := length_pySlice_le_length data
      ((numBlocks * c.blocksize : ℕ) - (c'.istream.stored.length : ℤ))
      ((numBlocks * c.blocksize : ℕ) - (c'.istream.stored.length : ℤ) +
        (data.length - ((numBlocks * c.blocksize : ℕ) - (c'.istream.stored.length : ℤ))))
    have := h.blocksize_le
    exact (keepRemaining_alike h (by omega)).bind_mirrors fun _ _ => Mirrors.pure trivial

/-- Where it has no room, the call copies past the end of the block. -/
theorem compress_overruns (h : Working limit cap safe c c') {data : List UInt8}
    (hroom : ¬ MemCall.Fits cap c'.istream.stored.length
      (.write (front c.blocksize c'.istream.stored.length data))) :
    compress data c = .error .outOfBounds := by
  have hempty : MemCall.Fits cap c'.istream.stored.length (.write []) :=
    fits_of_le h.istream (.inl (Nat.zero_le _))
  have hzero : c.blocksize ≠ 0 := by
    intro hzero
    rw [front, hzero, Nat.div_zero, if_neg (Nat.lt_irrefl 0)] at hroom
    exact hroom hempty
  generalize hnum : (c'.istream.stored.length + data.length) / c.blocksize = numBlocks
  have hrun := compress_of_ne h.flushed (istreamLen_eq h).1 hzero data hnum rfl rfl
  rw [front, hnum] at hroom
  by_cases hblocks : numBlocks > 0
  · rw [if_pos hblocks] at hroom
    have hwrite := memStreamWrite_overruns h.istream hroom
    rw [hrun, if_pos hblocks, encodeAvailable, Routine.bind_assoc]
    apply Routine.bind_of_fault
    exact Routine.within_of_fault rfl hwrite
  · rw [if_neg hblocks] at hroom
    exact absurd hempty hroom

/-- A call of `compress`. If it has to be safe, the data is not longer than the limit, or
nothing was kept. -/
theorem compress_alike (hlimit : safe → 2 * hufBtreeLen ≤ limit)
    (h : CompressorsAlike limit safe c c') (data : List UInt8)
    (hdata : safe → data.length ≤ limit ∨ c'.istream.stored = []) :
    Alike (Overrun safe) (CompressorsAlike limit safe) (fun _ => True) (compress data c)
      (compress data c') := by
  cases h with
  | flushed h h' =>
      rw [compress, compress, Routine.get_bind_apply, Routine.get_bind_apply, if_pos h, if_pos h']
      exact .leave (fun _ ha => by cases ha) (.flushed h h')
  | @working cap hcap h =>
      by_cases hroom : MemCall.Fits cap c'.istream.stored.length
        (.write (front c.blocksize c'.istream.stored.length data))
      · apply (compress_fits hlimit h hroom).mono ?_ fun _ h => h
        exact fun _ _ h => .working (hcap.trans (le_capAfter _ _ _)) h
      · rw [compress_overruns h hroom]
        refine .stray ⟨fun hs => hroom (fits_of_le h.istream ?_), rfl⟩
        have hlength := length_front_le c.blocksize c'.istream.stored.length data
        exact (hdata hs).imp_left fun hle => by omega

/-- The end of `flush`. -/
theorem closeStreams_alike {Stray : Fault → Prop} (h : Working limit cap safe c c')
    (encoding : List UInt8) :
    Alike Stray (CompressorsAlike limit safe) (fun _ => True)
      ((do
        Routine.within istreamPlace memStreamClose
        Routine.within ostreamPlace memStreamClose
        Routine.modify fun c => { c with flushed := true }
        return encoding : PyRoutine (HuffmanCompressor StreamPointer MemStream) (List UInt8)) c)
      ((do
        Routine.within istreamPlace memStreamClose
        Routine.within ostreamPlace memStreamClose
        Routine.modify fun c => { c with flushed := true }
        return encoding : PyRoutine (HuffmanCompressor Fifo Fifo) (List UInt8)) c') := by
  rcases c with ⟨_, _, istream, ostream, _, _⟩
  rcases (show ∃ s, istream = some s ∧ _ from h.istream) with ⟨s, rfl, -⟩
  rcases (show ∃ t, ostream = some t ∧ _ from h.ostream) with ⟨t, rfl, -⟩
  exact .leave (fun _ _ => trivial) (.flushed rfl rfl)

/-- A call of `flush`. The streams are closed at its end, and not used any more. -/
theorem flush_alike (hlimit : safe → 2 * hufBtreeLen ≤ limit)
    (h : CompressorsAlike limit safe c c') :
    Alike (Overrun safe) (CompressorsAlike limit safe) (fun _ => True) (flush c) (flush c') := by
  rw [flush, flush, Routine.get_bind_apply, Routine.get_bind_apply]
  cases h with
  | flushed h h' =>
      rw [if_pos h, if_pos h']
      exact .leave (fun _ _ => trivial) (.flushed h h')
  | working hcap h =>
      have hflushed := h.flushed
      have hflushed' := h.flushed'
      rw [if_neg (by simp [hflushed]), if_neg (by simp [hflushed'])]
      rcases istreamLen_eq h with ⟨hlen, hlen'⟩
      rw [Routine.bind_of_ok hlen, Routine.bind_of_ok hlen']
      generalize c'.istream.stored.length = length
      apply (setLength_mirrors length c c' h).bind fun _ _ h => .working hcap h
      intro _ c c' _ h
      apply Alike.ite
      · intro _
        apply (encode_mirrors hlimit c c' h).bind fun _ _ h => .working hcap h
        intro _ c c' _ h
        apply (memStreamGetvalue_mirrors.within ostream_corresponds c c' h).bind
          fun _ _ h => .working hcap h
        exact fun encoding c c' _ h => closeStreams_alike h encoding
      · exact fun _ => closeStreams_alike h []

end HuffmanCompressor

/-! ## The decompressor -/

/-- Two decompressors that are not closed. -/
structure DecompressorsAlike (limit : ℕ) (safe : Prop)
    (d : HuffmanDecompressor StreamPointer MemStream) (d' : HuffmanDecompressor Fifo Fifo) :
    Prop where
  istream : Open (limit ≤ ·) d.istream d'.istream
  ostream : Open (limit ≤ ·) d.ostream d'.ostream
  config : ConfigsAlike (memLikeness limit safe) (memLikeness limit safe) d.config d'.config
  heap : d'.heap = d.heap

namespace HuffmanDecompressor

open LibHuffman.HuffmanDecompressor

theorem alike_init (memlimit : ℕ) (heap : Heap) :
    DecompressorsAlike memlimit safe (init StreamPointer memlimit heap)
      (init Fifo memlimit heap) where
  istream := open_newMemStream (Nat.le_refl _)
  ostream := open_newMemStream (Nat.le_refl _)
  config := ⟨rfl, rfl, rfl, rfl, .some ⟨rfl, rfl⟩, .some ⟨rfl, rfl⟩, fun _ => Nat.zero_le _,
    fun _ => Nat.zero_le _⟩
  heap := rfl

theorem istream_corresponds :
    Corresponds istreamPlace istreamPlace (DecompressorsAlike limit safe) (Open (limit ≤ ·)) :=
  fun _ _ h => .inr ⟨_, _, rfl, rfl, h.istream, fun _ _ hs => { h with istream := hs }⟩

theorem ostream_corresponds :
    Corresponds ostreamPlace ostreamPlace (DecompressorsAlike limit safe) (Open (limit ≤ ·)) :=
  fun _ _ h => .inr ⟨_, _, rfl, rfl, h.ostream, fun _ _ hs => { h with ostream := hs }⟩

theorem world_corresponds :
    Corresponds world world (DecompressorsAlike limit safe)
      (WorldsAlike (memLikeness limit safe) (memLikeness limit safe)) := by
  rintro ⟨istream, ostream, _, _⟩ d' h
  rcases h.istream with ⟨s, rfl, hs⟩
  rcases h.ostream with ⟨t, rfl, ht⟩
  refine .inr ⟨_, _, rfl, rfl, ⟨hs, ht, h.heap⟩, fun w w' hw => ?_⟩
  exact { h with
    istream := ⟨_, rfl, hw.input⟩
    ostream := ⟨_, rfl, hw.output⟩
    heap := hw.heap }

/-- A call of `decompress`. If it has to be safe, the data is not longer than the limit, or it
is the first. -/
theorem decompress_alike {d : HuffmanDecompressor StreamPointer MemStream}
    {d' : HuffmanDecompressor Fifo Fifo} (h : DecompressorsAlike limit safe d d')
    (data : List UInt8)
    (hdata : safe → data.length ≤ limit ∨ d'.istream.stored = []) :
    Alike (Overrun safe) (DecompressorsAlike limit safe) (fun _ => True) (decompress data d)
      (decompress data d') := by
  have hwrite := memStreamWrite_alike h.istream hdata
  apply (hwrite.within rfl rfl fun _ _ hs => { h with istream := hs }).bind_mirrors
  intro _ _
  apply (memStreamLen_mirrors.within istream_corresponds).bind
  intro length _
  apply Mirrors.bind (V := fun _ => True)
  · exact Mirrors.modify fun _ _ h => { h with config := { h.config with length := rfl } }
  intro _ _
  apply Mirrors.get_bind
  intro d d' h
  apply Mirrors.bind
  · apply Mirrors.within world_corresponds
    apply unwrapExc_mirrors
    exact hufDecode_mirrors (fun _ => Nat.le_max_right _ _) (.some h.config)
  intro _ _
  apply (memStreamGetvalue_mirrors.within ostream_corresponds).bind
  intro decoding _
  apply (memStreamSeek_mirrors.within ostream_corresponds).bind
  exact fun _ _ => Mirrors.pure trivial

end HuffmanDecompressor

end LibHuffman.Native
