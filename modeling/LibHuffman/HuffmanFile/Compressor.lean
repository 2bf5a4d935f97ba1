/-
# Incremental compression

A call of `compress` encodes the whole blocks of the bytes it has and keeps the
rest, so that a run writes what one call of the encoder would. When it has no whole
block it takes its slice from the end of the chunk: of a chunk that is longer than
the bytes kept before, the front is dropped. `KeepsChunks` says on which chunks this
does not happen.
-/

import LibHuffman.HuffmanFile.Classes
import LibHuffman.Codec.Independence

namespace LibHuffman

open Foundation

/-! ## Slices -/

section

variable {α : Type}

theorem sliceIndex_natCast (len k : ℕ) : sliceIndex len k = min k len := by
  rw [sliceIndex, if_neg (by omega), Int.toNat_natCast]

theorem sliceIndex_neg (len : ℕ) {k : ℕ} (hk : 0 < k) : sliceIndex len (-k) = len - k := by
  rw [sliceIndex, if_pos (by omega)]
  omega

/-- A slice from the front. -/
theorem pySlice_zero (xs : List α) (k : ℕ) : pySlice xs 0 k = xs.take k := by
  have hzero : sliceIndex xs.length 0 = 0 := Nat.zero_min xs.length
  rw [pySlice, sliceIndex_natCast, hzero, List.drop_zero, ← List.take_take, List.take_length]

/-- A slice up to the end. -/
theorem pySlice_length (xs : List α) (start : ℤ) :
    pySlice xs start xs.length = xs.drop (sliceIndex xs.length start) := by
  simp [pySlice, sliceIndex_natCast]

end

namespace HuffmanCompressor

/-! ## One call -/

/-- A compressor between two calls, with `pending` in its input stream. -/
structure Pending (blocksize : ℕ) (c : HuffmanCompressor Fifo Fifo) (pending : List UInt8) :
    Prop where
  size : c.blocksize = blocksize
  flushed : c.flushed = false
  istream : c.istream = ⟨pending, 0⟩
  ostream : c.ostream = Fifo.empty
  config : c.config = { (init Fifo blocksize c.heap).config with length := c.config.length }
  allocations : c.heap.allocations = []

theorem pending_init (blocksize : ℕ) {heap : Heap} (halloc : heap.allocations = []) :
    Pending blocksize (init Fifo blocksize heap) [] := ⟨rfl, rfl, rfl, rfl, rfl, halloc⟩

section

variable {blocksize : ℕ} {c : HuffmanCompressor Fifo Fifo} {pending : List UInt8}

theorem within_istream {α : Type} {x : PyRoutine Fifo α} {r : Except PyException α} {s : Fifo}
    (h : x c.istream = .ok (r, s)) :
    Routine.within istreamPlace x c = .ok (r, { c with istream := s }) :=
  Routine.within_of_ok rfl h

/-- A run of the encoder on the bytes of the input stream. -/
theorem encode_eq (h : Pending blocksize c pending) (hpos : 0 < blocksize)
    (hlen : pending.length < 2 ^ 64) (hlength : c.config.length = pending.length) :
    ((∀ block ∈ cut blocksize pending, Fits block) ∧ ∃ istream ostream heap,
        encode c = .ok (.ok (), { c with istream, ostream, heap }) ∧
          ostream.stored = encoded blocksize pending ∧ heap.allocations = []) ∨
      (¬ ∀ block ∈ cut blocksize pending, Fits block) ∧ ∃ fault, encode c = .error fault := by
  have hblocksize : c.config.blocksize = blocksize := by rw [h.config]; rfl
  have hreader : c.config.reader = some Fifo.source.readWriter := by rw [h.config]; rfl
  have hwriter : c.config.writer = some Fifo.sink.readWriter := by rw [h.config]; rfl
  have hinput : Fifo.source.remaining c.istream = pending := by rw [h.istream]; rfl
  have houtput : Fifo.sink.content c.ostream = [] := by rw [h.ostream]; rfl
  have hrun := hufEncode_eq Fifo.source Fifo.sink c.config
    ⟨c.istream, c.ostream, c.heap⟩ hreader hwriter h.allocations trivial
    (by rw [hlength, hinput]) (by omega)
  dsimp only at hrun
  rw [hinput, houtput, hblocksize, blocksOf_of_pos hpos, List.nil_append] at hrun
  rw [encode, Routine.get_bind_apply]
  rcases hrun with ⟨hfits, world', hencode, hwritten, -, -, halloc⟩ | ⟨hfits, fault, hfault⟩
  · refine Or.inl ⟨hfits, world'.input, world'.output, world'.heap, ?_, hwritten, halloc⟩
    exact Routine.within_of_ok (s := ⟨c.istream, c.ostream, c.heap⟩) rfl (unwrapExc_of_ok hencode)
  · refine Or.inr ⟨hfits, fault, ?_⟩
    exact Routine.within_of_fault (s := ⟨c.istream, c.ostream, c.heap⟩) rfl
      (unwrapExc_of_fault hfault)

/-- The bytes of a chunk that a compressor with `kept` bytes in its input stream
takes. -/
def takenOf (blocksize kept : ℕ) (chunk : List UInt8) : List UInt8 :=
  if kept = 0 ∨ blocksize ≤ kept + chunk.length then chunk
  else chunk.drop (chunk.length - kept)

/-- How `compress` may end where it has `bytes`: it encodes their whole blocks and
keeps the rest. -/
def CompressPost (blocksize : ℕ) (bytes : List UInt8)
    (outcome : Outcome Fault PyException (HuffmanCompressor Fifo Fifo) (List UInt8)) : Prop :=
  ((∀ block ∈ cut blocksize (wholePart blocksize bytes), Fits block) ∧ ∃ c',
      outcome = .ok (.ok (encoded blocksize (wholePart blocksize bytes)), c') ∧
        Pending blocksize c' (lastPart blocksize bytes)) ∨
    (¬ ∀ block ∈ cut blocksize (wholePart blocksize bytes), Fits block) ∧
      ∃ fault, outcome = .error fault

theorem takenOf_length_le (blocksize kept : ℕ) (chunk : List UInt8) :
    (takenOf blocksize kept chunk).length ≤ chunk.length := by
  rw [takenOf]
  split
  · exact Nat.le_refl _
  · simp only [List.length_drop]
    omega

theorem keepRemaining_eq (c : HuffmanCompressor Fifo Fifo) (data : List UInt8)
    (maxBytes remBytes : ℤ) :
    keepRemaining data maxBytes remBytes c = .ok (.ok (), { c with
      istream := c.istream.write
        (if remBytes > 0 then pySlice data maxBytes (maxBytes + remBytes) else []) }) := by
  rw [keepRemaining]
  by_cases hrem : remBytes > 0
  · rw [if_pos hrem, if_pos hrem]
    rfl
  · rw [if_neg hrem, if_neg hrem, Fifo.write, List.append_nil]
    rfl

/-- The input stream is encoded together with the front of the chunk that completes
its last block. -/
theorem encodeAvailable_eq (h : Pending blocksize c pending) (hpos : 0 < blocksize)
    {data bytes : List UInt8} {maxBytes : ℤ} (hbytes : pending ++ pySlice data 0 maxBytes = bytes)
    (hlen : bytes.length < 2 ^ 64) :
    ((∀ block ∈ cut blocksize bytes, Fits block) ∧ ∃ c',
        encodeAvailable data bytes.length maxBytes c = .ok (.ok (encoded blocksize bytes), c') ∧
          Pending blocksize c' []) ∨
      (¬ ∀ block ∈ cut blocksize bytes, Fits block) ∧
        ∃ fault, encodeAvailable data bytes.length maxBytes c = .error fault := by
  have hwritten : c.istream.write (pySlice data 0 maxBytes) = ⟨bytes, 0⟩ := by
    rw [h.istream, Fifo.write, hbytes]
  have hpending : Pending blocksize { c with
      istream := ⟨bytes, 0⟩
      config := { c.config with length := bytes.length } } bytes :=
    ⟨h.size, h.flushed, rfl, h.ostream, by rw [h.config], h.allocations⟩
  have hwrite : Routine.within istreamPlace (memStreamWrite (pySlice data 0 maxBytes)) c =
      .ok (.ok (), { c with istream := ⟨bytes, 0⟩ }) :=
    within_istream (by rw [← hwritten]; rfl)
  rw [encodeAvailable, Routine.bind_of_ok hwrite, setLength, Routine.modify_bind_apply]
  rcases encode_eq hpending hpos hlen rfl with
    ⟨hfits, istream, ostream, heap, hrun, hstored, halloc⟩ | ⟨hfits, fault, hfault⟩
  · refine Or.inl ⟨hfits, { c with
      istream := Fifo.empty
      ostream := Fifo.empty
      config := { c.config with length := bytes.length }
      heap }, ?_, ⟨h.size, h.flushed, rfl, rfl, ?_, halloc⟩⟩
    · rw [Routine.bind_of_ok hrun, ← hstored]
      rfl
    · show { c.config with length := bytes.length } = _
      rw [h.config]
      rfl
  · exact Or.inr ⟨hfits, fault, Routine.bind_of_fault hfault⟩

theorem istreamLen_eq (h : Pending blocksize c pending) :
    Routine.within istreamPlace memStreamLen c = .ok (.ok pending.length, c) := by
  have hstored : c.istream.stored = pending := by rw [h.istream]
  rw [← hstored]
  rfl

/-- A call, on the number of bytes that are whole blocks: first these are encoded, and
then the remaining ones are written to the input stream. -/
theorem compress_eq (h : Pending blocksize c pending) (hpos : 0 < blocksize)
    (data : List UInt8) (numBytes : ℕ) (maxBytes remBytes : ℤ)
    (hnum : (pending.length + data.length) / blocksize * blocksize = numBytes)
    (hmax : maxBytes = numBytes - pending.length) (hrem : remBytes = data.length - maxBytes) :
    compress data c =
      ((if numBytes > 0 then encodeAvailable data numBytes maxBytes else pure []) >>=
        fun encoding => keepRemaining data maxBytes remBytes >>= fun _ =>
          (pure encoding : PyRoutine (HuffmanCompressor Fifo Fifo) (List UInt8))) c := by
  subst hnum
  have hiff : (pending.length + data.length) / blocksize > 0 ↔
      (pending.length + data.length) / blocksize * blocksize > 0 := by
    rw [gt_iff_lt, gt_iff_lt, Nat.mul_pos_iff_of_pos_right hpos]
  have hsize := h.size
  subst hsize
  rw [compress_of_ne h.flushed (istreamLen_eq h) (Nat.ne_of_gt hpos) data rfl hmax hrem]
  simp only [hiff]
  split <;> rfl

/-- Without a whole block, a call only keeps bytes. -/
theorem compress_keeps (h : Pending blocksize c pending) (hpos : 0 < blocksize)
    {chunk : List UInt8} (hshort : pending.length + chunk.length < blocksize) :
    CompressPost blocksize (pending ++ takenOf blocksize pending.length chunk)
      (compress chunk c) := by
  have hnum : (pending.length + chunk.length) / blocksize * blocksize = 0 := by
    rw [Nat.div_eq_of_lt hshort, Nat.zero_mul]
  have hstop : (-pending.length + (pending.length + chunk.length) : ℤ) = chunk.length := by omega
  have htaken : (if (pending.length + chunk.length : ℤ) > 0 then
        pySlice chunk (-pending.length) (-pending.length + (pending.length + chunk.length))
      else []) = takenOf blocksize pending.length chunk := by
    rw [hstop, pySlice_length, takenOf]
    by_cases hkept : pending.length = 0
    · rw [if_pos (Or.inl hkept), hkept]
      split
      · exact List.drop_zero
      · exact (List.length_eq_zero_iff.mp (by omega)).symm
    · rw [sliceIndex_neg _ (by omega), if_pos (by omega), if_neg (by omega)]
  have hlt : (pending ++ takenOf blocksize pending.length chunk).length < blocksize := by
    have := takenOf_length_le blocksize pending.length chunk
    simp only [List.length_append]
    omega
  have hrun : compress chunk c = .ok (.ok [], { c with
      istream := c.istream.write (takenOf blocksize pending.length chunk) }) := by
    rw [← htaken, compress_eq h hpos chunk 0 (-pending.length)
      (pending.length + chunk.length) hnum (by omega) (by omega),
      if_neg (Nat.lt_irrefl 0), Routine.pure_bind_apply]
    exact Routine.bind_of_ok (keepRemaining_eq c chunk _ _)
  rw [CompressPost, wholePart_of_lt hlt, lastPart_of_lt hlt, cut_nil, encoded_nil]
  refine Or.inl ⟨fun block hblock => absurd hblock List.not_mem_nil, _, hrun, ?_⟩
  exact ⟨h.size, h.flushed, by rw [h.istream, Fifo.write], h.ostream, h.config, h.allocations⟩

/-- With a whole block, a call encodes what it can. -/
theorem compress_encodes (h : Pending blocksize c pending) (hpos : 0 < blocksize)
    (hpending : pending.length < blocksize) {chunk : List UInt8}
    (hlong : blocksize ≤ pending.length + chunk.length)
    (hlen : (pending ++ chunk).length < 2 ^ 64) :
    CompressPost blocksize (pending ++ takenOf blocksize pending.length chunk)
      (compress chunk c) := by
  rw [takenOf, if_pos (Or.inr hlong)]
  set bytes := pending ++ chunk with hbytes
  have hsum : bytes.length = pending.length + chunk.length := List.length_append
  have hwhole := length_wholePart blocksize bytes
  have hblock : blocksize ≤ (wholePart blocksize bytes).length := by
    rw [hwhole, hsum]
    exact Nat.le_mul_of_pos_left _ (Nat.div_pos hlong hpos)
  have hle : (wholePart blocksize bytes).length ≤ bytes.length := List.length_take_le' _ _
  obtain ⟨count, hcount⟩ := Nat.exists_eq_add_of_le
    (show pending.length ≤ (wholePart blocksize bytes).length by omega)
  -- the chunk is cut behind its first `count` bytes
  have hfront : pending ++ pySlice chunk 0 count = wholePart blocksize bytes := by
    rw [pySlice_zero, wholePart, ← hwhole, hcount, hbytes, List.take_length_add_append]
  have hback : (if (chunk.length - count : ℤ) > 0 then
      pySlice chunk count (count + (chunk.length - count)) else []) = lastPart blocksize bytes := by
    have hstop : (count + (chunk.length - count) : ℤ) = chunk.length := by omega
    rw [hstop, pySlice_length, sliceIndex_natCast, Nat.min_eq_left (by omega), lastPart, ← hwhole,
      hcount, hbytes, List.drop_length_add_append]
    split
    · rfl
    · exact (List.drop_eq_nil_of_le (by omega)).symm
  have hcall := compress_eq h hpos chunk (wholePart blocksize bytes).length
    count (chunk.length - count) (by rw [hwhole, hsum])
    (by omega) rfl
  rw [if_pos (by omega)] at hcall
  rw [CompressPost, hcall]
  rcases encodeAvailable_eq h hpos hfront (by omega) with ⟨hfits, c', hrun, hnext⟩ |
    ⟨hfits, fault, hfault⟩
  · refine Or.inl
      ⟨hfits, { c' with istream := c'.istream.write (lastPart blocksize bytes) }, ?_, ?_⟩
    · rw [Routine.bind_of_ok hrun, ← hback]
      exact Routine.bind_of_ok (keepRemaining_eq c' chunk _ _)
    · exact ⟨hnext.size, hnext.flushed, by rw [hnext.istream, Fifo.write, List.nil_append],
        hnext.ostream, hnext.config, hnext.allocations⟩
  · exact Or.inr ⟨hfits, fault, Routine.bind_of_fault hfault⟩

/-- What one call of `compress` does. -/
theorem compress_post (h : Pending blocksize c pending) (hpos : 0 < blocksize)
    (hpending : pending.length < blocksize) {chunk : List UInt8}
    (hlen : (pending ++ chunk).length < 2 ^ 64) :
    CompressPost blocksize (pending ++ takenOf blocksize pending.length chunk)
      (compress chunk c) := by
  rcases Nat.lt_or_ge (pending.length + chunk.length) blocksize with hshort | hlong
  · exact compress_keeps h hpos hshort
  · exact compress_encodes h hpos hpending hlong hlen

/-- `flush` encodes what is left. -/
theorem flush_eq (h : Pending blocksize c pending) (hpos : 0 < blocksize)
    (hlen : pending.length < 2 ^ 64) :
    ((∀ block ∈ cut blocksize pending, Fits block) ∧
        ∃ c', flush c = .ok (.ok (encoded blocksize pending), c')) ∨
      (¬ ∀ block ∈ cut blocksize pending, Fits block) ∧ ∃ fault, flush c = .error fault := by
  rw [flush, Routine.get_bind_apply, h.flushed, if_neg Bool.false_ne_true,
    Routine.bind_of_ok (istreamLen_eq h), setLength, Routine.modify_bind_apply]
  by_cases hempty : pending = []
  · subst hempty
    rw [cut_nil, encoded_nil]
    exact Or.inl ⟨fun block hblock => absurd hblock List.not_mem_nil, _, rfl⟩
  · have hpending : Pending blocksize { c with
        config := { c.config with length := pending.length } } pending :=
      ⟨h.size, h.flushed, h.istream, h.ostream, by rw [h.config], h.allocations⟩
    rw [if_pos (List.length_pos_iff.mpr hempty)]
    rcases encode_eq hpending hpos hlen rfl with
      ⟨hfits, istream, ostream, heap, hrun, hstored, -⟩ | ⟨hfits, fault, hfault⟩
    · refine Or.inl ⟨hfits, { c with
        flushed := true
        istream := Fifo.empty
        ostream := Fifo.empty
        config := { c.config with length := pending.length }
        heap }, ?_⟩
      rw [Routine.bind_of_ok hrun, ← hstored]
      rfl
    · exact Or.inr ⟨hfits, fault, Routine.bind_of_fault hfault⟩

end

end HuffmanCompressor

end LibHuffman
