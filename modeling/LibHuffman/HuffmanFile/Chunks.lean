/-
# Compressing chunks

A run of a compressor passes chunks to `compress` one after the other and then calls
`flush`. Its output is that of one call of the encoder on the bytes that were taken;
so the way in which the data is cut into chunks matters as far as chunks are not
taken as a whole.
-/

import LibHuffman.HuffmanFile.Compressor

namespace LibHuffman

open Foundation

namespace HuffmanCompressor

/-! ## Runs -/

/-- Compress the chunks one after the other. -/
def compressAll : List (List UInt8) → PyRoutine (HuffmanCompressor Fifo Fifo) (List (List UInt8))
  | [] => pure []
  | chunk :: chunks => do
    let encoding ← compress chunk
    return encoding :: (← compressAll chunks)

/-- Compress the chunks, flush, and concatenate the results. -/
def compressChunks (chunks : List (List UInt8)) :
    PyRoutine (HuffmanCompressor Fifo Fifo) (List UInt8) := do
  let encodings ← compressAll chunks
  let last ← flush
  return encodings.flatten ++ last

/-- The bytes of the chunks that a compressor takes, with `kept` bytes in its input
stream at the start. -/
def takenBytes (blocksize : ℕ) : ℕ → List (List UInt8) → List UInt8
  | _, [] => []
  | kept, chunk :: chunks =>
    let taken := takenOf blocksize kept chunk
    taken ++ takenBytes blocksize ((kept + taken.length) % blocksize) chunks

/-- No chunk that does not complete a block is longer than the bytes kept before it,
unless there are none. -/
def KeepsChunks (blocksize : ℕ) : ℕ → List (List UInt8) → Prop
  | _, [] => True
  | kept, chunk :: chunks =>
    (kept + chunk.length < blocksize → kept = 0 ∨ chunk.length ≤ kept) ∧
      KeepsChunks blocksize ((kept + chunk.length) % blocksize) chunks

section

variable {blocksize kept : ℕ} {chunk : List UInt8} {chunks : List (List UInt8)}

theorem takenOf_eq_iff : takenOf blocksize kept chunk = chunk ↔
    (kept + chunk.length < blocksize → kept = 0 ∨ chunk.length ≤ kept) := by
  rw [takenOf]
  split
  · exact iff_of_true rfl fun hshort => by omega
  · apply Iff.intro
    · intro hdrop
      have hlen := congrArg List.length hdrop
      simp only [List.length_drop] at hlen
      omega
    · intro hkeeps
      rw [show chunk.length - kept = 0 by omega, List.drop_zero]

theorem takenBytes_length_le (blocksize kept : ℕ) (chunks : List (List UInt8)) :
    (takenBytes blocksize kept chunks).length ≤ chunks.flatten.length := by
  induction chunks generalizing kept with
  | nil => exact Nat.le_refl _
  | cons chunk chunks ih =>
      have htaken := takenOf_length_le blocksize kept chunk
      have hrest := ih ((kept + (takenOf blocksize kept chunk).length) % blocksize)
      simp only [takenBytes, List.flatten_cons, List.length_append, List.length_append]
      omega

/-- The whole of the chunks is taken on the condition above. -/
theorem takenBytes_eq_iff :
    takenBytes blocksize kept chunks = chunks.flatten ↔ KeepsChunks blocksize kept chunks := by
  induction chunks generalizing kept with
  | nil => exact iff_of_true rfl trivial
  | cons chunk chunks ih =>
      rw [takenBytes, KeepsChunks, List.flatten_cons, ← takenOf_eq_iff, ← ih]
      apply Iff.intro
      · intro h
        have htaken := takenOf_length_le blocksize kept chunk
        have hrest := takenBytes_length_le blocksize
          ((kept + (takenOf blocksize kept chunk).length) % blocksize) chunks
        have hlen := congrArg List.length h
        rw [List.length_append, List.length_append] at hlen
        obtain ⟨hchunk, hchunks⟩ := List.append_inj h (by omega)
        rw [hchunk] at hchunks
        exact ⟨hchunk, hchunks⟩
      · intro h'
        rcases h' with ⟨hchunk, hchunks⟩
        rw [hchunk, hchunks]

theorem KeepsChunks.of_append {before after : List (List UInt8)}
    (h : KeepsChunks blocksize kept (before ++ after)) : KeepsChunks blocksize kept before := by
  induction before generalizing kept with
  | nil => trivial
  | cons chunk before ih => exact ⟨h.1, ih h.2⟩

end

section

variable {blocksize : ℕ} {c : HuffmanCompressor Fifo Fifo} {pending : List UInt8}

/-- How a run of `compress` may end where it has `bytes`. -/
def RunPost (blocksize : ℕ) (bytes : List UInt8)
    (outcome : Outcome Fault PyException (HuffmanCompressor Fifo Fifo) (List (List UInt8))) :
    Prop :=
  ((∀ block ∈ cut blocksize (wholePart blocksize bytes), Fits block) ∧ ∃ encodings c',
      outcome = .ok (.ok encodings, c') ∧
        encodings.flatten = encoded blocksize (wholePart blocksize bytes) ∧
        Pending blocksize c' (lastPart blocksize bytes)) ∨
    (¬ ∀ block ∈ cut blocksize (wholePart blocksize bytes), Fits block) ∧
      ∃ fault, outcome = .error fault

/-- Fitting of the whole blocks of two parts. -/
theorem fits_wholePart_append (hpos : 0 < blocksize) (bytes rest : List UInt8) :
    (∀ block ∈ cut blocksize (wholePart blocksize (bytes ++ rest)), Fits block) ↔
      (∀ block ∈ cut blocksize (wholePart blocksize bytes), Fits block) ∧
        ∀ block ∈ cut blocksize (wholePart blocksize (lastPart blocksize bytes ++ rest)),
          Fits block := by
  have hdvd := dvd_length_wholePart blocksize bytes
  conv_lhs => rw [← wholePart_append_lastPart blocksize bytes]
  rw [List.append_assoc, wholePart_append hpos hdvd, cut_append hpos hdvd, List.forall_mem_append]

/-- A run of `compress` encodes the whole blocks of the bytes it takes and keeps the
rest. -/
theorem compressAll_post (h : Pending blocksize c pending) (hpos : 0 < blocksize)
    (hpending : pending.length < blocksize) {chunks : List (List UInt8)}
    (hlen : (pending ++ chunks.flatten).length < 2 ^ 64) :
    RunPost blocksize (pending ++ takenBytes blocksize pending.length chunks)
      (compressAll chunks c) := by
  induction chunks generalizing c pending with
  | nil =>
      rw [takenBytes, List.append_nil, RunPost, wholePart_of_lt hpending, lastPart_of_lt hpending,
        cut_nil, encoded_nil]
      exact Or.inl ⟨fun block hblock => absurd hblock List.not_mem_nil, [], c, rfl, rfl, h⟩
  | cons chunk chunks ih =>
      rw [List.flatten_cons, ← List.append_assoc, List.length_append] at hlen
      set bytes := pending ++ takenOf blocksize pending.length chunk with hbytes
      have hlenBytes : bytes.length ≤ (pending ++ chunk).length := by
        have := takenOf_length_le blocksize pending.length chunk
        simp only [hbytes, List.length_append, List.length_append]
        omega
      have hlast := length_lastPart blocksize bytes
      have hmod : bytes.length % blocksize ≤ bytes.length := Nat.mod_le _ _
      have hrest : (pending.length + (takenOf blocksize pending.length chunk).length) % blocksize =
          (lastPart blocksize bytes).length := by
        rw [hlast, hbytes, List.length_append]
      rw [takenBytes, hrest, ← List.append_assoc, ← hbytes]
      set rest := takenBytes blocksize (lastPart blocksize bytes).length chunks
      have hiff := fits_wholePart_append hpos bytes rest
      have hdvd := dvd_length_wholePart blocksize bytes
      have hsplit : bytes ++ rest =
          wholePart blocksize bytes ++ (lastPart blocksize bytes ++ rest) := by
        rw [← List.append_assoc, wholePart_append_lastPart]
      rw [RunPost, hiff]
      have hcall : CompressPost blocksize bytes (compress chunk c) :=
        compress_post h hpos hpending (by omega)
      rcases hcall with
        ⟨hfits, c', hrun, hnext⟩ | ⟨hfits, fault, hfault⟩
      · rcases ih hnext (by rw [hlast]; exact Nat.mod_lt _ hpos)
          (by simp only [List.length_append]; omega) with
          ⟨hfits', encodings, c'', hrun', hencodings, hnext'⟩ | ⟨hfits', fault, hfault⟩
        · refine Or.inl ⟨⟨hfits, hfits'⟩,
            encoded blocksize (wholePart blocksize bytes) :: encodings, c'', ?_, ?_, ?_⟩
          · rw [compressAll, Routine.bind_of_ok hrun]
            exact Routine.bind_of_ok hrun'
          · rw [List.flatten_cons, hencodings, hsplit, wholePart_append hpos hdvd,
              encoded_append hpos hdvd]
          · rw [hsplit, lastPart_append hpos hdvd]
            exact hnext'
        · refine Or.inr ⟨fun hboth => hfits' hboth.2, fault, ?_⟩
          rw [compressAll, Routine.bind_of_ok hrun]
          exact Routine.bind_of_fault hfault
      · refine Or.inr ⟨fun hboth => hfits hboth.1, fault, ?_⟩
        rw [compressAll]
        exact Routine.bind_of_fault hfault

/-- A run with its `flush` encodes the bytes it takes. -/
theorem compressChunks_eq (h : Pending blocksize c []) (hpos : 0 < blocksize)
    {chunks : List (List UInt8)} (hlen : chunks.flatten.length < 2 ^ 64) :
    ((∀ block ∈ cut blocksize (takenBytes blocksize 0 chunks), Fits block) ∧ ∃ c',
        compressChunks chunks c =
          .ok (.ok (encoded blocksize (takenBytes blocksize 0 chunks)), c')) ∨
      (¬ ∀ block ∈ cut blocksize (takenBytes blocksize 0 chunks), Fits block) ∧
        ∃ fault, compressChunks chunks c = .error fault := by
  set bytes := takenBytes blocksize 0 chunks with hbytes
  have hpost : RunPost blocksize bytes (compressAll chunks c) :=
    compressAll_post h hpos hpos (by rwa [List.nil_append])
  have hdvd := dvd_length_wholePart blocksize bytes
  have hsplit := wholePart_append_lastPart blocksize bytes
  have hlast : (lastPart blocksize bytes).length < 2 ^ 64 := by
    have hmod : bytes.length % blocksize ≤ bytes.length := Nat.mod_le _ _
    have hle : bytes.length ≤ chunks.flatten.length := takenBytes_length_le blocksize 0 chunks
    rw [length_lastPart]
    omega
  have hcut : cut blocksize bytes =
      cut blocksize (wholePart blocksize bytes) ++ cut blocksize (lastPart blocksize bytes) := by
    rw [← cut_append hpos hdvd, hsplit]
  rw [hcut, List.forall_mem_append, compressChunks]
  rcases hpost with ⟨hfits, encodings, c', hrun, hencodings, hnext⟩ | ⟨hfits, fault, hfault⟩
  · rw [Routine.bind_of_ok hrun]
    rcases flush_eq hnext hpos hlast with ⟨hfits', c'', hflush⟩ | ⟨hfits', fault, hfault⟩
    · refine Or.inl ⟨⟨hfits, hfits'⟩, c'', ?_⟩
      rw [Routine.bind_of_ok hflush, hencodings, ← encoded_append hpos hdvd, hsplit]
      rfl
    · exact Or.inr ⟨fun hboth => hfits' hboth.2, fault, Routine.bind_of_fault hfault⟩
  · exact Or.inr ⟨fun hboth => hfits hboth.1, fault, Routine.bind_of_fault hfault⟩

end

/-! ## The cut of the data -/

/-- Compressing the chunks does not depend on how the data is cut: the output is that
of one call of the encoder, and between two calls less than a block is kept, which is
what has not been encoded. -/
structure Incremental (blocksize : ℕ) (heap : Heap) (chunks : List (List UInt8))
    (bytes : List UInt8) : Prop where
  output : ∃ c, compressChunks chunks (init Fifo blocksize heap) = .ok (.ok bytes, c)
  decodes : ∀ readerBufferSize writerBufferSize, ∃ world,
    hufDecode (some (fifoConfig bytes.length readerBufferSize writerBufferSize))
        (fifoWorld bytes) = .ok (.ok (), world) ∧
      world.output.stored = chunks.flatten
  buffered : ∀ before after, chunks = before ++ after → ∃ encodings c front,
    compressAll before (init Fifo blocksize heap) = .ok (.ok encodings, c) ∧
      c.istream.unread.length < blocksize ∧ before.flatten = front ++ c.istream.unread ∧
      Writes blocksize front encodings.flatten

section

variable {blocksize : ℕ} {heap : Heap} {chunks : List (List UInt8)}

/-- What is left in the input stream after some chunks that are taken as a whole. -/
theorem compressAll_buffered (hpos : 0 < blocksize) (halloc : heap.allocations = [])
    {before : List (List UInt8)} (hlen : before.flatten.length < 2 ^ 64)
    (hfits : ∀ block ∈ cut blocksize (wholePart blocksize before.flatten), Fits block)
    (hkeeps : KeepsChunks blocksize 0 before) : ∃ encodings c front,
      compressAll before (init Fifo blocksize heap) = .ok (.ok encodings, c) ∧
        c.istream.unread.length < blocksize ∧ before.flatten = front ++ c.istream.unread ∧
        Writes blocksize front encodings.flatten := by
  have hpost : RunPost blocksize (takenBytes blocksize 0 before)
      (compressAll before (init Fifo blocksize heap)) :=
    compressAll_post (pending_init blocksize halloc) hpos hpos (by rwa [List.nil_append])
  rw [takenBytes_eq_iff.mpr hkeeps] at hpost
  rcases hpost with ⟨-, encodings, c, hrun, hencodings, hpending⟩ | ⟨hnot, -⟩
  · have hunread : c.istream.unread = lastPart blocksize before.flatten := by
      rw [hpending.istream]
      rfl
    refine ⟨encodings, c, wholePart blocksize before.flatten, hrun, ?_, ?_, ?_⟩
    · rw [hunread, length_lastPart]
      exact Nat.mod_lt _ hpos
    · rw [hunread, wholePart_append_lastPart]
    · rw [hencodings]
      apply writes_encoded (Nat.lt_of_le_of_lt (List.length_take_le' _ _) hlen)
      rw [blocksOf_of_pos hpos]
      exact hfits
  · exact absurd hfits hnot

/-- The cut does not matter exactly where every chunk is taken as a whole. -/
theorem incremental_iff_keepsChunks (hpos : 0 < blocksize) (halloc : heap.allocations = [])
    (chunks : List (List UInt8)) (hlen : chunks.flatten.length < 2 ^ 64) {bytes : List UInt8}
    (hwrites : Writes blocksize chunks.flatten bytes) :
    Incremental blocksize heap chunks bytes ↔ KeepsChunks blocksize 0 chunks := by
  have hfits := hwrites.fits hlen
  have hbytes : bytes = encoded blocksize chunks.flatten :=
    hwrites.unique (writes_encoded hlen hfits)
  have hrun := compressChunks_eq (pending_init blocksize halloc) hpos hlen
  apply Iff.intro
  · intro hincremental
    obtain ⟨c, houtput⟩ := hincremental.output
    rcases hrun with ⟨htaken, c', hcompress⟩ | ⟨-, fault, hfault⟩
    · rw [hcompress] at houtput
      cases houtput
      have hle := takenBytes_length_le blocksize 0 chunks
      rw [← blocksOf_of_pos hpos] at htaken
      exact takenBytes_eq_iff.mp
        (encoded_injective (Nat.lt_of_le_of_lt hle hlen) hlen htaken hfits hbytes)
    · rw [hfault] at houtput
      cases houtput
  · intro hkeeps
    rw [takenBytes_eq_iff.mpr hkeeps, ← hbytes, ← blocksOf_of_pos hpos] at hrun
    refine ⟨?_, fun readerBufferSize writerBufferSize => ?_, fun before after hchunks => ?_⟩
    · rcases hrun with ⟨-, c, hcompress⟩ | ⟨hnot, -⟩
      · exact ⟨c, hcompress⟩
      · exact absurd hfits hnot
    · rw [hbytes]
      exact hufDecode_encoded Fifo.source Fifo.sink _ _ rfl rfl rfl trivial hlen hfits rfl rfl
    · subst hchunks
      rw [List.flatten_append, List.length_append] at hlen
      refine compressAll_buffered hpos halloc (by omega) ?_ hkeeps.of_append
      have hsplit : (before ++ after).flatten = wholePart blocksize before.flatten ++
          (lastPart blocksize before.flatten ++ after.flatten) := by
        rw [List.flatten_append, ← List.append_assoc, wholePart_append_lastPart]
      rw [blocksOf_of_pos hpos, hsplit, cut_append hpos (dvd_length_wholePart _ _),
        List.forall_mem_append] at hfits
      exact hfits.1

end

/-- Five bytes in blocks of four, cut into a chunk of one, one of four and an empty one. -/
theorem incremental_five : ∃ bytes, Writes 4 [97, 98, 99, 100, 101] bytes ∧
    Incremental 4 emptyHeap [[97], [98, 99, 100, 101], []] bytes := by
  have hwrites : Writes 4 [97, 98, 99, 100, 101] (encoded 4 [97, 98, 99, 100, 101]) :=
    writes_encoded (by decide) ((smallTrees_of_short (by decide)).fits (by decide))
  refine ⟨_, hwrites, (incremental_iff_keepsChunks (by decide) rfl [[97], [98, 99, 100, 101], []]
    (by decide) hwrites).mpr ?_⟩
  simp [KeepsChunks]

/-- Two chunks that are less than a block: the first byte of the second one is lost. -/
theorem not_incremental_three : ∃ bytes shorter c,
    Writes 4 [97, 98, 99] bytes ∧ Writes 4 [97, 99] shorter ∧
      compressChunks [[97], [98, 99]] (init Fifo 4 emptyHeap) = .ok (.ok shorter, c) ∧
      ¬ Incremental 4 emptyHeap [[97], [98, 99]] bytes := by
  have hfits : ∀ block ∈ blocksOf 4 [97, 98, 99], Fits block :=
    (smallTrees_of_short (by decide)).fits (by decide)
  have hfits' : ∀ block ∈ blocksOf 4 [97, 99], Fits block :=
    (smallTrees_of_short (by decide)).fits (by decide)
  have htaken : takenBytes 4 0 [[97], [98, 99]] = [97, 99] := by decide
  have hrun := compressChunks_eq (c := init Fifo 4 emptyHeap) (pending_init 4 rfl) (by decide)
    (show [[97], [98, 99]].flatten.length < 2 ^ 64 by decide)
  rw [htaken, ← blocksOf_of_pos (by decide)] at hrun
  rcases hrun with ⟨-, c, hcompress⟩ | ⟨hnot, -⟩
  · refine ⟨_, _, c, writes_encoded (by decide) hfits, writes_encoded (by decide) hfits',
      hcompress, fun hincremental => ?_⟩
    obtain ⟨c', houtput⟩ := hincremental.output
    rw [hcompress] at houtput
    have hpair := Except.ok.inj houtput
    rw [Prod.mk.injEq] at hpair
    exact absurd (encoded_injective (by decide) (by decide) hfits' hfits (Except.ok.inj hpair.1))
      (by decide)
  · exact absurd hfits' hnot

end HuffmanCompressor

end LibHuffman
