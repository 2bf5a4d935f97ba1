/-
# Files on the streams of `io.c`

Every run of calls of a `HuffmanFile` is a run of the file on ideal memory streams, or copies
past the end of a block. It cannot do that where the blocksize has room for a serialized tree
and no call hands on more bytes than the streams were opened for.
-/

import LibHuffman.HuffmanFile.Archive
import LibHuffman.HuffmanFile.Refined

namespace LibHuffman

open Foundation

namespace Native

/-! ## The calls of a file -/

variable {blocksize memlimit : ℕ} {safe : Prop}

/-- Two files in the same mode, over the same file underneath. -/
inductive FilesAlike (blocksize memlimit : ℕ) (safe : Prop) :
    HuffmanFile StreamPointer MemStream → HuffmanFile Fifo Fifo → Prop
  | closed : FilesAlike blocksize memlimit safe .closed .closed
  | reading {fp : Fifo} {d : HuffmanDecompressor StreamPointer MemStream}
      {d' : HuffmanDecompressor Fifo Fifo} (h : DecompressorsAlike memlimit safe d d') :
      FilesAlike blocksize memlimit safe (.reading fp d) (.reading fp d')
  | writing {fp : Fifo} {c : HuffmanCompressor StreamPointer MemStream}
      {c' : HuffmanCompressor Fifo Fifo} (h : CompressorsAlike blocksize safe c c') :
      FilesAlike blocksize memlimit safe (.writing fp c) (.writing fp c')

/-- Two handles, of files that are related by `Files`. -/
structure HandlesAlike
    (Files : HuffmanFile StreamPointer MemStream → HuffmanFile Fifo Fifo → Prop)
    (h : FileHandle StreamPointer MemStream) (h' : FileHandle Fifo Fifo) : Prop where
  file : Files h.file h'.file
  closefp : h'.closefp = h.closefp
  released : h'.released = h.released

theorem alike_init (fp : Fifo) (mode : OpenMode) (closefp : Bool) (blocksize memlimit : ℕ)
    (heap : Heap) :
    HandlesAlike (FilesAlike blocksize memlimit safe)
      (FileHandle.init StreamPointer fp mode closefp blocksize memlimit heap)
      (FileHandle.init Fifo fp mode closefp blocksize memlimit heap) := by
  refine ⟨?_, rfl, rfl⟩
  have hwriting := @HuffmanCompressor.working_init safe blocksize heap
  cases mode with
  | read => exact .reading (HuffmanDecompressor.alike_init memlimit heap)
  | write | exclusive | append => exact .writing (.working (Nat.le_refl _) hwriting)

theorem file_corresponds
    {Files : HuffmanFile StreamPointer MemStream → HuffmanFile Fifo Fifo → Prop} :
    Corresponds FileHandle.filePlace FileHandle.filePlace (HandlesAlike Files) Files :=
  fun _ _ h => .inr ⟨_, _, rfl, rfl, h.file, fun _ _ hf => { h with file := hf }⟩

/-! ## Reading and writing -/

theorem load_decompressor {κ μ : Type} (fp : Fifo) (d : HuffmanDecompressor κ μ) :
    HuffmanFile.decompressorPlace.load (.reading fp d) = .ok d := rfl

theorem load_compressor {κ μ : Type} (fp : Fifo) (c : HuffmanCompressor κ μ) :
    HuffmanFile.compressorPlace.load (.writing fp c) = .ok c := rfl

/-- A `read` hands on at most as many bytes as it asks for. -/
theorem read_mirrors {bufferSize : ℕ} {size : ℤ}
    (hsize : safe → HuffmanFile.requested bufferSize size ≤ memlimit) :
    Mirrors (Overrun safe) (FilesAlike blocksize memlimit safe) (HuffmanFile.read bufferSize size)
      (HuffmanFile.read bufferSize size) fun _ => True := by
  intro f f' h
  cases h with
  | closed => exact .leave (fun _ ha => by cases ha) .closed
  | writing h => exact .leave (fun _ ha => by cases ha) (.writing h)
  | @reading fp d d' h =>
      rw [HuffmanFile.read_reading, HuffmanFile.read_reading]
      have hdecompress := @HuffmanDecompressor.decompress_alike memlimit safe d d' h
        (fp.unread.take (HuffmanFile.requested bufferSize size)) fun hsafe =>
          .inl ((List.length_take_le _ _).trans (hsize hsafe))
      exact hdecompress.within (load_decompressor _ d) (load_decompressor _ d')
        fun _ _ h => .reading h

theorem fpWrite_mirrors {Stray : Fault → Prop} (data : List UInt8) :
    Mirrors Stray (FilesAlike blocksize memlimit safe)
      (Routine.within HuffmanFile.writtenFpPlace (HuffmanFile.fpWrite data))
      (Routine.within HuffmanFile.writtenFpPlace (HuffmanFile.fpWrite data))
      fun _ => True := by
  intro f f' h
  cases h with
  | closed => exact .fault _
  | reading h => exact .fault _
  | writing h => exact .leave (fun _ _ => trivial) (.writing h)

theorem write_mirrors (hlimit : safe → 2 * hufBtreeLen ≤ blocksize) {data : List UInt8}
    (hdata : safe → data.length ≤ blocksize) :
    Mirrors (Overrun safe) (FilesAlike blocksize memlimit safe) (HuffmanFile.write data)
      (HuffmanFile.write data) fun _ => True := by
  intro f f' h
  cases h with
  | closed => exact .leave (fun _ ha => by cases ha) .closed
  | reading h => exact .leave (fun _ ha => by cases ha) (.reading h)
  | @writing fp c c' h =>
      have hcompress := HuffmanCompressor.compress_alike hlimit h data fun hsafe =>
        .inl (hdata hsafe)
      apply (hcompress.within (load_compressor fp c) (load_compressor fp c')
        fun _ _ h => .writing h).bind_mirrors
      intro compressed _
      apply (fpWrite_mirrors compressed).bind
      exact fun _ _ => Mirrors.pure trivial

/-! ## Closing -/

theorem letGo_mirrors {Stray : Fault → Prop} :
    Mirrors Stray (HandlesAlike (FilesAlike blocksize memlimit safe))
      (Routine.modify FileHandle.letGo : PyRoutine (FileHandle StreamPointer MemStream) Unit)
      (Routine.modify FileHandle.letGo) fun _ => True := by
  apply Mirrors.modify
  rintro ⟨f, closefp, released⟩ ⟨f', closefp', released'⟩ ⟨hfile, hclosefp, hreleased⟩
  obtain rfl : closefp' = closefp := hclosefp
  obtain rfl : released' = released := hreleased
  cases (show FilesAlike blocksize memlimit safe f f' from hfile) with
  | closed => exact ⟨.closed, rfl, rfl⟩
  | reading h => exact ⟨.closed, rfl, rfl⟩
  | writing h => exact ⟨.closed, rfl, rfl⟩

/-- A file that is read closes its streams, a file that is written flushes first. -/
theorem close_mirrors (hlimit : safe → 2 * hufBtreeLen ≤ blocksize) :
    Mirrors (Overrun safe) (HandlesAlike (FilesAlike blocksize memlimit safe)) FileHandle.close
      FileHandle.close fun _ => True := by
  rintro ⟨f, closefp, released⟩ ⟨f', closefp', released'⟩ ⟨hfile, hclosefp, hreleased⟩
  obtain rfl : closefp' = closefp := hclosefp
  obtain rfl : released' = released := hreleased
  cases (show FilesAlike blocksize memlimit safe f f' from hfile) with
  | closed => exact .leave (fun _ _ => trivial) ⟨.closed, rfl, rfl⟩
  | @reading fp d d' h =>
      rcases d with ⟨istream, ostream, config, heap⟩
      rcases (show ∃ s, istream = some s ∧ _ from h.istream) with ⟨s, rfl, -⟩
      rcases (show ∃ t, ostream = some t ∧ _ from h.ostream) with ⟨t, rfl, -⟩
      exact .leave (fun _ _ => trivial) ⟨.closed, rfl, rfl⟩
  | @writing fp c c' h =>
      have hflush := HuffmanCompressor.flush_alike hlimit h
      have hfinish : Alike (Overrun safe) (FilesAlike blocksize memlimit safe) (fun _ => True)
          (FileHandle.finish (.writing fp c)) (FileHandle.finish (.writing fp c')) :=
        (hflush.within (load_compressor fp c) (load_compressor fp c')
          fun _ _ h => .writing h).bind_mirrors fun data _ => fpWrite_mirrors data
      exact (hfinish.within rfl rfl fun _ _ h => ⟨h, rfl, rfl⟩).ensuring letGo_mirrors

/-! ## Runs of calls -/

/-- The call hands on at most as many bytes as the streams are opened for. -/
def Modest (bufferSize blocksize memlimit : ℕ) : FileCall → Prop
  | .read size => HuffmanFile.requested bufferSize size ≤ memlimit
  | .write data => data.length ≤ blocksize
  | _ => True

/-- A call that asks both files for the same, and leaves them as they are. -/
theorem query_mirrors {Stray : Fault → Prop} {α : Type} (value : α → FileValue)
    {query : PyRoutine (HuffmanFile StreamPointer MemStream) α}
    {query' : PyRoutine (HuffmanFile Fifo Fifo) α}
    (hsame : ∀ f f', FilesAlike blocksize memlimit safe f f' →
      ∃ r, query f = .ok (r, f) ∧ query' f' = .ok (r, f')) :
    Mirrors Stray (HandlesAlike (FilesAlike blocksize memlimit safe))
      (do
        let answer ← Routine.within FileHandle.filePlace query
        return value answer : PyRoutine (FileHandle StreamPointer MemStream) FileValue)
      (do
        let answer ← Routine.within FileHandle.filePlace query'
        return value answer) fun _ => True := by
  have hquery : Mirrors Stray (FilesAlike blocksize memlimit safe) query query'
      fun _ => True := by
    intro f f' h
    rcases hsame f f' h with ⟨r, hrun, hrun'⟩
    rw [hrun, hrun']
    exact .leave (fun _ _ => trivial) h
  exact (hquery.within file_corresponds).bind fun _ _ => Mirrors.pure trivial

theorem run_mirrors {bufferSize : ℕ} {call : FileCall}
    (hsafe : safe → 2 * hufBtreeLen ≤ blocksize ∧ Modest bufferSize blocksize memlimit call) :
    Mirrors (Overrun safe) (HandlesAlike (FilesAlike blocksize memlimit safe)) (call.run bufferSize)
      (call.run bufferSize) fun _ => True := by
  cases call with
  | read size =>
      have hread := @read_mirrors blocksize memlimit safe bufferSize size fun hs => (hsafe hs).2
      exact (hread.within file_corresponds).bind fun _ _ => Mirrors.pure trivial
  | write data =>
      have hwrite := @write_mirrors blocksize memlimit safe (fun hs => (hsafe hs).1) data
        fun hs => (hsafe hs).2
      exact (hwrite.within file_corresponds).bind fun _ _ => Mirrors.pure trivial
  | close =>
      have hclose := @close_mirrors blocksize memlimit safe fun hs => (hsafe hs).1
      exact hclose.bind fun _ _ => Mirrors.pure trivial
  | readable =>
      apply query_mirrors FileValue.flag
      intro f f' h
      cases h <;> exact ⟨_, rfl, rfl⟩
  | writable =>
      apply query_mirrors FileValue.flag
      intro f f' h
      cases h <;> exact ⟨_, rfl, rfl⟩
  | fileno descriptor =>
      apply query_mirrors FileValue.count
      intro f f' h
      cases h <;> cases descriptor <;> exact ⟨_, rfl, rfl⟩
  | seekable =>
      apply query_mirrors FileValue.flag
      exact fun f f' _ => ⟨_, rfl, rfl⟩
  | closed =>
      rintro ⟨f, closefp, released⟩ ⟨f', closefp', released'⟩ ⟨hfile, hclosefp, hreleased⟩
      cases (show FilesAlike blocksize memlimit safe f f' from hfile) with
      | closed => exact .leave (fun _ _ => trivial) ⟨.closed, hclosefp, hreleased⟩
      | reading h => exact .leave (fun _ _ => trivial) ⟨.reading h, hclosefp, hreleased⟩
      | writing h => exact .leave (fun _ _ => trivial) ⟨.writing h, hclosefp, hreleased⟩

theorem HandlesAlike.shown {h : FileHandle StreamPointer MemStream} {h' : FileHandle Fifo Fifo}
    (hr : HandlesAlike (FilesAlike blocksize memlimit safe) h h') : h'.shown = h.shown := by
  rcases h with ⟨f, closefp, released⟩
  rcases h' with ⟨f', closefp', released'⟩
  obtain rfl : released' = released := hr.released
  cases (show FilesAlike blocksize memlimit safe f f' from hr.file) with
  | closed => cases released' <;> rfl
  | reading h => rfl
  | writing h => rfl

/-- How a run on the streams of `io.c` ends, next to the one on ideal streams: it copies past the
end of a block where that one does not leave its memory, or the two are the same. -/
theorem runCalls_shown {bufferSize : ℕ} {calls : List FileCall}
    (hsafe : safe → 2 * hufBtreeLen ≤ blocksize ∧
      ∀ call ∈ calls, Modest bufferSize blocksize memlimit call)
    (fp : Fifo) (mode : OpenMode) (closefp : Bool) (heap : Heap) :
    let h := FileHandle.init StreamPointer fp mode closefp blocksize memlimit heap
    let h' := FileHandle.init Fifo fp mode closefp blocksize memlimit heap
    (¬ safe ∧ runCalls (FileCall.run bufferSize) calls h = .error .outOfBounds ∧
      runCalls (FileCall.run bufferSize) calls h' ≠ .error .outOfBounds) ∨
      (runCalls (FileCall.run bufferSize) calls h).map (Prod.map id (·.shown)) =
        (runCalls (FileCall.run bufferSize) calls h').map (Prod.map id (·.shown)) := by
  intro h h'
  have hcalls (call : FileCall) (hcall : call ∈ calls) :
      Mirrors (Overrun safe) (HandlesAlike (FilesAlike blocksize memlimit safe))
        (call.run bufferSize) (call.run bufferSize) fun _ => True :=
    run_mirrors fun hs => ⟨(hsafe hs).1, (hsafe hs).2 call hcall⟩
  rcases runCalls_alike hcalls (alike_init fp mode closefp blocksize memlimit heap) with
    ⟨fault, ⟨hnot, rfl⟩, hrun⟩ | ⟨fault, hrun, hrun'⟩ | ⟨rs, s, s', hrun, hrun', hr⟩
  · by_cases hideal : runCalls (FileCall.run bufferSize) calls h' = .error .outOfBounds
    · rw [hrun, hideal]
      exact .inr rfl
    · exact .inl ⟨hnot, hrun, hideal⟩
  · rw [hrun, hrun']
    exact .inr rfl
  · rw [hrun, hrun']
    apply Or.inr
    show Except.ok (rs, s.shown) = Except.ok (rs, s'.shown)
    rw [hr.shown]

/-- A file on the streams of `io.c` refines the file on ideal ones, up to the growth of these
streams: every run of calls, in every mode and wherever allocations fail, replies, stores and
releases the same, or leaves its memory where the run on ideal streams does not. -/
theorem runCalls_refines (fp : Fifo) (mode : OpenMode) (closefp : Bool)
    (blocksize memlimit bufferSize : ℕ) (heap : Heap) (calls : List FileCall) :
    let h := FileHandle.init StreamPointer fp mode closefp blocksize memlimit heap
    let h' := FileHandle.init Fifo fp mode closefp blocksize memlimit heap
    (runCalls (FileCall.run bufferSize) calls h = .error .outOfBounds ∧
      runCalls (FileCall.run bufferSize) calls h' ≠ .error .outOfBounds) ∨
      (runCalls (FileCall.run bufferSize) calls h).map (Prod.map id (·.shown)) =
        (runCalls (FileCall.run bufferSize) calls h').map (Prod.map id (·.shown)) := by
  intro h h'
  have hrun := @runCalls_shown blocksize memlimit False bufferSize calls False.elim fp mode closefp
    heap
  exact hrun.imp_left And.right

theorem compress_alike (hlimit : safe → 2 * hufBtreeLen ≤ blocksize) (data : List UInt8)
    (heap : Heap) :
    Alike (Overrun safe) (CompressorsAlike blocksize safe) (fun _ => True)
      (Huffmanfile.compress StreamPointer data blocksize heap)
      (Huffmanfile.compress Fifo data blocksize heap) := by
  have hinit := @HuffmanCompressor.working_init safe blocksize heap
  have hfirst := HuffmanCompressor.compress_alike hlimit (.working (Nat.le_refl _) hinit) data
    fun _ => .inr rfl
  apply hfirst.bind fun _ _ h => h
  intro first c c' _ h
  apply (HuffmanCompressor.flush_alike hlimit h).bind_mirrors
  exact fun _ _ => Mirrors.pure trivial

theorem decompress_alike (data : List UInt8) (heap : Heap) :
    Alike (Overrun safe) (fun _ _ => True) (fun _ => True)
      (Huffmanfile.decompress StreamPointer data memlimit heap)
      (Huffmanfile.decompress Fifo data memlimit heap) := by
  have hinit := @HuffmanDecompressor.alike_init safe memlimit heap
  have hdecompress := HuffmanDecompressor.decompress_alike hinit data fun _ => .inr rfl
  apply hdecompress.bind fun _ _ _ => trivial
  intro dataOut d d' _ h
  rcases d with ⟨istream, ostream, config, heap⟩
  rcases (show ∃ s, istream = some s ∧ _ from h.istream) with ⟨s, rfl, -⟩
  rcases (show ∃ t, ostream = some t ∧ _ from h.ostream) with ⟨t, rfl, -⟩
  exact .leave (fun _ _ => trivial) trivial

/-- `decompress` gives back what `compress` was given, unless the blocksize is zero, or so small
that a stream has no room for a serialized tree: then `compress` may copy past its block. -/
theorem decompress_compress {heap heap' : Heap} (halloc : heap.allocations = [])
    (halloc' : heap'.allocations = []) (blocksize memlimit : ℕ) {data : List UInt8}
    (hlen : data.length < 2 ^ 63) (hsmall : SmallTrees blocksize data) :
    let compressed := Huffmanfile.compress StreamPointer data blocksize heap
    (blocksize = 0 → ∃ c, compressed = .ok (.error .zeroDivisionError, c)) ∧
      (0 < blocksize →
        (blocksize < 2 * hufBtreeLen ∧ compressed = .error .outOfBounds) ∨
          ∃ bytes c d, compressed = .ok (.ok bytes, c) ∧
            Huffmanfile.decompress StreamPointer bytes memlimit heap' = .ok (.ok data, d)) := by
  intro compressed
  apply And.intro
  · rintro rfl
    exact ⟨_, rfl⟩
  intro hpos
  have hfits := hsmall.fits hlen
  rcases compress_eq_encoded halloc hpos (by omega) hfits with ⟨c', hideal⟩
  rcases decompress_of_blocks memlimit halloc' (blocks_encoded (by omega) hfits) with ⟨d', hideal'⟩
  have hcompress := @compress_alike blocksize (2 * hufBtreeLen ≤ blocksize) id data heap
  have hdecompress := @decompress_alike memlimit True (encoded blocksize data) heap'
  rw [hideal] at hcompress
  rw [hideal'] at hdecompress
  rcases hcompress.eq_ok with ⟨fault, ⟨hsmall, rfl⟩, hrun⟩ | ⟨c, hrun, -⟩
  · exact .inl ⟨Nat.lt_of_not_le hsmall, hrun⟩
  rcases hdecompress.eq_ok with ⟨fault, ⟨hnot, -⟩, -⟩ | ⟨d, hrun', -⟩
  · exact absurd trivial hnot
  · exact .inr ⟨_, c, d, hrun, hrun'⟩

/-- Five bytes in one block of 2048. -/
theorem decompress_compress_five : ∃ bytes c d,
    Huffmanfile.compress StreamPointer [104, 101, 108, 108, 111] 2048 emptyHeap =
        .ok (.ok bytes, c) ∧
      Huffmanfile.decompress StreamPointer bytes 0 emptyHeap =
        .ok (.ok [104, 101, 108, 108, 111], d) := by
  have halloc : emptyHeap.allocations = [] := rfl
  have htrees : SmallTrees 2048 [104, 101, 108, 108, 111] := smallTrees_of_short (by decide)
  have hback := decompress_compress halloc halloc 2048 0 (by decide) htrees
  rcases hback.2 (by decide) with ⟨hsmall, -⟩ | hback
  · exact absurd hsmall (by decide)
  · exact hback

end Native

end LibHuffman
