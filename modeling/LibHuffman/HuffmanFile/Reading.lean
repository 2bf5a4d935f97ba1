/-
# Reading a file to its end

A `read` without a size takes one buffer of compressed bytes from the file and decompresses
it. After a first read of some bytes no read returns anything: the decompressor declares
everything that it was ever given, and has read all of it.
-/

import LibHuffman.HuffmanFile.Decompressor

namespace LibHuffman

open Foundation

namespace HuffmanDecompressor

variable {d : HuffmanDecompressor Fifo Fifo} {past data symbols : List UInt8}

/-- A call that returns something has read as many bytes as were ever given. -/
theorem readBlocks_of_decompress (h : Ready d past) {d' : HuffmanDecompressor Fifo Fifo}
    (hrun : decompress data d = .ok (.ok symbols, d')) :
    ∃ rest, readBlocks (past.length + data.length) data = .complete symbols rest := by
  have hpost := decompress_post h data
  rw [hrun] at hpost
  cases hread : readBlocks (past.length + data.length) data with
  | complete found rest =>
      rw [hread] at hpost
      rcases hpost with ⟨_, hsame, -⟩
      cases hsame
      exact ⟨rest, rfl⟩
  | failed code =>
      rw [hread] at hpost
      rcases hpost with ⟨_, hsame⟩
      cases hsame
  | crashed =>
      rw [hread] at hpost
      cases hpost

/-- The first bytes are decompressed exactly if they are blocks. -/
theorem decompress_first_iff (h : Ready d []) :
    (∃ d', decompress data d = .ok (.ok symbols, d')) ↔ Blocks data symbols := by
  apply Iff.intro
  · intro h'
    rcases h' with ⟨d', hrun⟩
    rcases readBlocks_of_decompress h hrun with ⟨rest, hread⟩
    rw [List.length_nil, Nat.zero_add] at hread
    exact ((readBlocks_complete_iff data symbols rest).mp hread).1
  · intro hblocks
    rcases decompress_first h hblocks with ⟨d', hrun, -⟩
    exact ⟨d', hrun⟩

/-- After some bytes no more bytes are enough. -/
theorem decompress_after (h : Ready d past) (hpast : past ≠ []) (data : List UInt8)
    (d' : HuffmanDecompressor Fifo Fifo) : decompress data d ≠ .ok (.ok symbols, d') := by
  intro hrun
  rcases readBlocks_of_decompress h hrun with ⟨rest, hread⟩
  have hle := le_length_of_readBlocks hread
  have hpos := List.length_pos_iff.mpr hpast
  omega

end HuffmanDecompressor

namespace HuffmanFile

/-- How many compressed bytes `read` asks for. -/
def requested (defaultBufferSize : ℕ) (size : ℤ) : ℕ :=
  if size < 0 then defaultBufferSize else size.toNat

section

variable {bufferSize : ℕ} {size : ℤ} {fp : Fifo} {d d' : HuffmanDecompressor Fifo Fifo}
  {r : Except PyException (List UInt8)}

/-! ## One read -/

theorem read_reading {κ μ : Type} [MemoryStreams κ μ] (bufferSize : ℕ) (size : ℤ) (fp : Fifo)
    (d : HuffmanDecompressor κ μ) :
    read bufferSize size (.reading fp d) =
      Routine.within decompressorPlace
        (HuffmanDecompressor.decompress (fp.unread.take (requested bufferSize size)))
        (.reading (fp.advance (requested bufferSize size)) d) := rfl

theorem read_of_ok
    (h : HuffmanDecompressor.decompress (fp.unread.take (requested bufferSize size)) d =
      .ok (r, d')) :
    read bufferSize size (.reading fp d) =
      .ok (r, .reading (fp.advance (requested bufferSize size)) d') := by
  rw [read_reading]
  exact Routine.within_of_ok (s := d) rfl h

theorem read_eq_ok {f' : HuffmanFile Fifo Fifo}
    (h : read bufferSize size (.reading fp d) = .ok (r, f')) :
    ∃ d', HuffmanDecompressor.decompress (fp.unread.take (requested bufferSize size)) d =
        .ok (r, d') ∧
      f' = .reading (fp.advance (requested bufferSize size)) d' := by
  rw [read_reading] at h
  rcases Routine.within_eq_ok h with ⟨s, d', hload, hrun, rfl⟩
  cases hload
  exact ⟨d', hrun, rfl⟩

/-! ## Runs -/

/-- Read once with each of the sizes. -/
def readAll (defaultBufferSize : ℕ) : List ℤ → PyRoutine (HuffmanFile Fifo Fifo) (List (List UInt8))
  | [] => pure []
  | size :: sizes => do
    let decoding ← read defaultBufferSize size
    return decoding :: (← readAll defaultBufferSize sizes)

/-- A file without compressed bytes is at its end. -/
theorem readAll_at_end (hready : HuffmanDecompressor.Ready d []) (hend : fp.unread = [])
    (sizes : List ℤ) :
    ∃ f', readAll bufferSize sizes (.reading fp d) =
      .ok (.ok (sizes.map fun _ => []), f') := by
  induction sizes generalizing fp d with
  | nil => exact ⟨.reading fp d, rfl⟩
  | cons size sizes ih =>
      rcases HuffmanDecompressor.decompress_first hready .nil with ⟨d', hrun, hready'⟩
      have hchunk : HuffmanDecompressor.decompress
          (fp.unread.take (requested bufferSize size)) d = .ok (.ok [], d') := by
        rw [hend, List.take_nil, hrun]
      have hend' : (fp.advance (requested bufferSize size)).unread = [] := by
        rw [Fifo.unread_advance, hend, List.drop_nil]
      rcases ih hready' hend' with ⟨f', hall⟩
      refine ⟨f', ?_⟩
      rw [readAll, Routine.bind_of_ok (read_of_ok hchunk), Routine.bind_of_ok hall]
      rfl

/-- After a first read of some bytes every read fails. -/
theorem read_after {past symbols : List UInt8} (hready : HuffmanDecompressor.Ready d past)
    (hpast : past ≠ []) (f' : HuffmanFile Fifo Fifo) :
    read bufferSize size (.reading fp d) ≠ .ok (.ok symbols, f') := by
  intro hread
  rcases read_eq_ok hread with ⟨d', hrun, -⟩
  exact HuffmanDecompressor.decompress_after hready hpast _ d' hrun

/-- A first read without a size that returns something has decompressed the first buffer. -/
theorem read_init_eq_ok {heap : Heap} (halloc : heap.allocations = []) {blocksize memlimit : ℕ}
    {content symbols : List UInt8} (hsize : size < 0) {f' : HuffmanFile Fifo Fifo}
    (h : read bufferSize size (init Fifo ⟨content, 0⟩ .read blocksize memlimit heap) =
      .ok (.ok symbols, f')) :
    Blocks (content.take bufferSize) symbols ∧
      ∃ fp' d', f' = .reading fp' d' ∧
        HuffmanDecompressor.Ready d' (content.take bufferSize) := by
  have hready := HuffmanDecompressor.ready_init memlimit heap halloc
  rcases read_eq_ok h with ⟨d', hrun, rfl⟩
  rw [requested, if_pos hsize] at hrun
  have hchunk := (HuffmanDecompressor.decompress_first_iff hready).mp ⟨d', hrun⟩
  rcases HuffmanDecompressor.decompress_first hready hchunk with ⟨d'', hrun', hready'⟩
  cases hrun.symm.trans hrun'
  exact ⟨hchunk, _, d', rfl, hready'⟩

/-- The first read without a size returns what the first buffer encodes. -/
theorem read_init_iff {heap : Heap} (halloc : heap.allocations = []) (blocksize memlimit : ℕ)
    {content symbols : List UInt8} (hsize : size < 0) :
    (∃ f', read bufferSize size (init Fifo ⟨content, 0⟩ .read blocksize memlimit heap) =
        .ok (.ok symbols, f')) ↔
      Blocks (content.take bufferSize) symbols := by
  apply Iff.intro
  · intro h
    rcases h with ⟨f', hread⟩
    exact (read_init_eq_ok halloc hsize hread).1
  · intro hchunk
    have hready := HuffmanDecompressor.ready_init memlimit heap halloc
    rcases HuffmanDecompressor.decompress_first hready hchunk with ⟨d', hrun, -⟩
    have hrequested : requested bufferSize size = bufferSize := if_pos hsize
    rw [← hrequested] at hrun
    exact ⟨_, read_of_ok hrun⟩

/-- A file of blocks is read to its end by a read without a size, and later reads return
nothing, if and only if the file is empty or the first buffer has all of the symbols and there
are no later reads. -/
theorem readAll_init_iff (hbuffer : 0 < bufferSize) {heap : Heap} (halloc : heap.allocations = [])
    (blocksize memlimit : ℕ) {content symbols : List UInt8} (hblocks : Blocks content symbols)
    (hsize : size < 0) (sizes : List ℤ) :
    (∃ f', readAll bufferSize (size :: sizes)
        (init Fifo ⟨content, 0⟩ .read blocksize memlimit heap) =
        .ok (.ok (symbols :: sizes.map fun _ => []), f')) ↔
      content = [] ∨ sizes = [] ∧ Blocks (content.take bufferSize) symbols := by
  apply Iff.intro
  · intro h
    rcases h with ⟨f', hall⟩
    rw [readAll] at hall
    rcases Routine.bind_eq_ok hall with ⟨first, f₁, hfirst, hrest⟩
    rcases Routine.bind_eq_ok hrest with ⟨later, f₂, hlater, hpure⟩
    cases hpure
    rcases read_init_eq_ok halloc hsize hfirst with ⟨hchunk, fp', d', rfl, hready⟩
    cases sizes with
    | nil => exact Or.inr ⟨rfl, hchunk⟩
    | cons size' sizes =>
        apply Or.inl
        by_contra hcontent
        have hpast : content.take bufferSize ≠ [] := by
          rw [Ne, List.take_eq_nil_iff, not_or]
          exact ⟨Nat.ne_of_gt hbuffer, hcontent⟩
        rw [readAll] at hlater
        rcases Routine.bind_eq_ok hlater with ⟨second, f₃, hsecond, -⟩
        exact read_after hready hpast f₃ hsecond
  · rintro (rfl | ⟨rfl, hchunk⟩)
    · rw [hblocks.eq_nil]
      exact readAll_at_end (HuffmanDecompressor.ready_init memlimit heap halloc) rfl (size :: sizes)
    · rcases (read_init_iff halloc blocksize memlimit hsize).mpr hchunk with ⟨f', hread⟩
      exact ⟨f', Routine.bind_of_ok hread⟩

/-- A file of one block that is read once. -/
theorem readAll_init_iff_symbolBlock :
    (∃ f', readAll 8192 [-1]
        (init Fifo ⟨HuffmanDecompressor.symbolBlock, 0⟩ .read 131072 131072 emptyHeap) =
        .ok (.ok [[49]], f')) ↔
      HuffmanDecompressor.symbolBlock = [] ∨
        ([] : List ℤ) = [] ∧ Blocks (HuffmanDecompressor.symbolBlock.take 8192) [49] :=
  readAll_init_iff (by decide) rfl 131072 131072 HuffmanDecompressor.blocks_symbolBlock
    (by decide) []

end

/-- A file of one block is read once; the second read raises an exception. -/
theorem read_symbolBlock_twice :
    ∃ f f', read 8192 (-1)
        (init Fifo ⟨HuffmanDecompressor.symbolBlock, 0⟩ .read 131072 131072 emptyHeap) =
        .ok (.ok [49], f) ∧
      read 8192 (-1) f = .ok (.error
        (.huffmanError "Failed on read/write operation. Failed to decode the data"), f') ∧
      ¬ ∃ f'', readAll 8192 [-1, -1]
          (init Fifo ⟨HuffmanDecompressor.symbolBlock, 0⟩ .read 131072 131072 emptyHeap) =
        .ok (.ok [[49], []], f'') := by
  rcases HuffmanDecompressor.decompress_first (HuffmanDecompressor.ready_init 131072 emptyHeap rfl)
    HuffmanDecompressor.blocks_symbolBlock with ⟨d, hrun, hready⟩
  rcases HuffmanDecompressor.decompress_again hready (by decide) .nil with ⟨d', hagain⟩
  have hfirst : read 8192 (-1)
      (init Fifo ⟨HuffmanDecompressor.symbolBlock, 0⟩ .read 131072 131072 emptyHeap) =
        .ok (.ok [49], .reading ⟨HuffmanDecompressor.symbolBlock, 21⟩ d) :=
    read_of_ok hrun
  have hsecond : read 8192 (-1) (.reading ⟨HuffmanDecompressor.symbolBlock, 21⟩ d) =
      .ok (.error (.huffmanError "Failed on read/write operation. Failed to decode the data"),
        .reading ⟨HuffmanDecompressor.symbolBlock, 21⟩ d') :=
    read_of_ok hagain
  refine ⟨_, _, hfirst, hsecond, ?_⟩
  intro h
  rcases h with ⟨f'', hall⟩
  rw [readAll, Routine.bind_of_ok hfirst] at hall
  rcases Routine.bind_eq_ok hall with ⟨later, f₂, hlater, -⟩
  rcases Routine.bind_eq_ok hlater with ⟨second, f₃, hsecond', -⟩
  cases hsecond.symm.trans hsecond'

end HuffmanFile

end LibHuffman
