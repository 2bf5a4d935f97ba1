/-
# Room for the chunks

The input stream of a compressor grows without a look at what it holds. Which writes make a
file on the streams of `io.c` copy past the end of a block is said by the numbers of bytes alone:
in all other cases it is the file on ideal streams.
-/

import LibHuffman.HuffmanFile.Refinement

namespace LibHuffman.Native

open Foundation

/-! ## The numbers of bytes -/

/-- The bytes in whole blocks, of those that are kept and those that come. -/
def wholeBytes (blocksize kept count : ℕ) : ℕ := (kept + count) / blocksize * blocksize

/-- There is room for the whole blocks in a block of `cap` bytes that grows: they fit in one
twice as large, or what they lack is more than that. -/
def HasRoom (blocksize cap kept count : ℕ) : Prop :=
  wholeBytes blocksize kept count ≤ cap * 2 ∨ cap * 2 < wholeBytes blocksize kept count - kept

/-- The size of the block behind a chunk. -/
def grownFor (blocksize cap kept count : ℕ) : ℕ :=
  if wholeBytes blocksize kept count ≤ cap then cap
  else if cap * 2 < wholeBytes blocksize kept count - kept then
    (wholeBytes blocksize kept count - kept) * 2
  else cap * 2

/-- The bytes that are kept behind a chunk. Of one without a whole block `compress` takes no
more bytes than it has. -/
def keptAfter (blocksize kept count : ℕ) : ℕ :=
  (kept + if kept = 0 ∨ blocksize ≤ kept + count then count else min kept count) % blocksize

/-- There is room for chunks of these lengths, one after the other. -/
def RoomFor (blocksize : ℕ) : ℕ → ℕ → List ℕ → Prop
  | _, _, [] => True
  | cap, kept, count :: counts =>
    HasRoom blocksize cap kept count ∧
      RoomFor blocksize (grownFor blocksize cap kept count) (keptAfter blocksize kept count) counts

instance (blocksize cap kept count : ℕ) : Decidable (HasRoom blocksize cap kept count) :=
  inferInstanceAs (Decidable (_ ∨ _))

instance decidableRoomFor (blocksize : ℕ) :
    (cap kept : ℕ) → (counts : List ℕ) → Decidable (RoomFor blocksize cap kept counts)
  | _, _, [] => .isTrue trivial
  | cap, kept, count :: counts =>
    have := decidableRoomFor blocksize (grownFor blocksize cap kept count)
      (keptAfter blocksize kept count) counts
    inferInstanceAs (Decidable (_ ∧ _))

section

variable {blocksize cap kept : ℕ}

theorem keptAfter_eq (blocksize kept : ℕ) (data : List UInt8) :
    keptAfter blocksize kept data.length =
      (kept + (HuffmanCompressor.takenOf blocksize kept data).length) % blocksize := by
  rw [keptAfter, HuffmanCompressor.takenOf]
  split
  · rfl
  · rw [List.length_drop]
    congr 2
    omega

/-- The front of the chunk is what the whole blocks lack. -/
theorem length_front (hkept : kept < blocksize) (data : List UInt8) :
    (front blocksize kept data).length = wholeBytes blocksize kept data.length - kept := by
  have hle : wholeBytes blocksize kept data.length ≤ kept + data.length := Nat.div_mul_le_self _ _
  rw [front]
  by_cases hblocks : (kept + data.length) / blocksize > 0
  · have hge : blocksize ≤ wholeBytes blocksize kept data.length := Nat.le_mul_of_pos_left _ hblocks
    have hlack : ((wholeBytes blocksize kept data.length : ℕ) - kept : ℤ) =
        (wholeBytes blocksize kept data.length - kept : ℕ) := by omega
    rw [if_pos hblocks]
    show (pySlice data 0 ((wholeBytes blocksize kept data.length : ℕ) - kept : ℤ)).length = _
    rw [hlack, pySlice_zero, List.length_take]
    omega
  · have hzero : (kept + data.length) / blocksize = 0 := Nat.eq_zero_of_not_pos hblocks
    rw [if_neg hblocks, wholeBytes, hzero, Nat.zero_mul, Nat.zero_sub]
    rfl

/-- The write of the front fits exactly where there is room. -/
theorem fits_front_iff (hkept : kept < blocksize) (hcap : blocksize ≤ cap) (data : List UInt8) :
    MemCall.Fits cap kept (.write (front blocksize kept data)) ↔
      HasRoom blocksize cap kept data.length := by
  rw [MemCall.Fits, HasRoom, length_front hkept]
  omega

theorem capAfter_front (hkept : kept < blocksize) (hcap : blocksize ≤ cap) (data : List UInt8) :
    MemCall.capAfter cap kept (.write (front blocksize kept data)) =
      grownFor blocksize cap kept data.length := by
  have hfull : kept + (wholeBytes blocksize kept data.length - kept) ≤ cap ↔
      wholeBytes blocksize kept data.length ≤ cap := by omega
  rw [MemCall.capAfter, grownFor, length_front hkept]
  simp only [hfull]

end

/-! ## Writing -/

/-- Two files that are written, over an input stream with a block of `cap` bytes. -/
def FilesAt (blocksize cap : ℕ) (f : HuffmanFile StreamPointer MemStream)
    (f' : HuffmanFile Fifo Fifo) : Prop :=
  ∃ fp c c', f = .writing fp c ∧ f' = .writing fp c' ∧ blocksize ≤ cap ∧
    Working blocksize cap True c c'

section

variable {blocksize cap memlimit bufferSize : ℕ} {closefp : Bool}

theorem FilesAt.filesAlike {f : HuffmanFile StreamPointer MemStream} {f' : HuffmanFile Fifo Fifo}
    (h : FilesAt blocksize cap f f') : FilesAlike blocksize memlimit True f f' := by
  rcases h with ⟨fp, c, c', rfl, rfl, hcap, hc⟩
  exact .writing (.working hcap hc)

theorem HandlesAlike.filesAlike {h : FileHandle StreamPointer MemStream} {h' : FileHandle Fifo Fifo}
    (hr : HandlesAlike (FilesAt blocksize cap) h h') :
    HandlesAlike (FilesAlike blocksize memlimit True) h h' :=
  ⟨hr.file.filesAlike, hr.closefp, hr.released⟩

theorem filesAt_init (fp : Fifo) {mode : OpenMode} (hmode : mode ≠ .read) (closefp : Bool)
    (blocksize memlimit : ℕ) (heap : Heap) :
    HandlesAlike (FilesAt blocksize blocksize)
      (FileHandle.init StreamPointer fp mode closefp blocksize memlimit heap)
      (FileHandle.init Fifo fp mode closefp blocksize memlimit heap) := by
  have hworking := @HuffmanCompressor.working_init True blocksize heap
  rw [FileHandle.init_of_ne_read fp hmode, FileHandle.init_of_ne_read fp hmode]
  exact ⟨⟨fp, _, _, rfl, rfl, Nat.le_refl _, hworking⟩, rfl, rfl⟩

/-- A write with room, to a compressor that keeps `kept`. -/
theorem write_fits (hblocksize : 2 * hufBtreeLen ≤ blocksize) (fp : Fifo)
    {c : HuffmanCompressor StreamPointer MemStream} {c' : HuffmanCompressor Fifo Fifo}
    (hcap : blocksize ≤ cap) (h : Working blocksize cap True c c') {kept : List UInt8}
    (hpending : HuffmanCompressor.Pending blocksize c' kept) (hkept : kept.length < blocksize)
    {data : List UInt8} (hroom : HasRoom blocksize cap kept.length data.length) :
    Alike (Overrun True) (FilesAt blocksize (grownFor blocksize cap kept.length data.length))
      (fun _ => True) (HuffmanFile.write data (.writing fp c))
      (HuffmanFile.write data (.writing fp c')) := by
  have hlength : c'.istream.stored.length = kept.length := by rw [hpending.istream]
  have hsize : c.blocksize = blocksize := h.blocksize.symm.trans hpending.size
  have hcompress := @HuffmanCompressor.compress_fits blocksize True cap c c' (fun _ => hblocksize) h
    data
  rw [hlength, hsize, fits_front_iff hkept hcap, capAfter_front hkept hcap] at hcompress
  have hgrown : blocksize ≤ grownFor blocksize cap kept.length data.length := by
    rw [← capAfter_front hkept hcap]
    exact hcap.trans (le_capAfter _ _ _)
  generalize grownFor blocksize cap kept.length data.length = cap' at hcompress hgrown ⊢
  have hwithin : Alike (Overrun True) (FilesAt blocksize cap') (fun _ => True)
      (Routine.within HuffmanFile.compressorPlace (HuffmanCompressor.compress data)
        (.writing fp c))
      (Routine.within HuffmanFile.compressorPlace (HuffmanCompressor.compress data)
        (.writing fp c')) :=
    (hcompress hroom).within rfl rfl fun _ _ hc => ⟨fp, _, _, rfl, rfl, hgrown, hc⟩
  apply hwithin.bind_mirrors
  intro compressed _
  apply Mirrors.bind (V := fun _ => True)
  · rintro f f' ⟨fp, c, c', rfl, rfl, hcap, hc⟩
    exact .leave (fun _ _ => trivial) ⟨fp.write compressed, c, c', rfl, rfl, hcap, hc⟩
  · exact fun _ _ => Mirrors.pure trivial

/-- A write without room. -/
theorem write_overruns (fp : Fifo) {c : HuffmanCompressor StreamPointer MemStream}
    {c' : HuffmanCompressor Fifo Fifo} (hcap : blocksize ≤ cap)
    (h : Working blocksize cap True c c') {kept : List UInt8}
    (hpending : HuffmanCompressor.Pending blocksize c' kept) (hkept : kept.length < blocksize)
    {data : List UInt8} (hroom : ¬ HasRoom blocksize cap kept.length data.length) :
    HuffmanFile.write data (.writing fp c) = .error .outOfBounds := by
  have hlength : c'.istream.stored.length = kept.length := by rw [hpending.istream]
  have hsize : c.blocksize = blocksize := h.blocksize.symm.trans hpending.size
  have hcompress := @HuffmanCompressor.compress_overruns blocksize True cap c c' h data
  rw [hlength, hsize, fits_front_iff hkept hcap] at hcompress
  have hcheck : HuffmanFile.checkCanWrite (.writing fp c) = .ok (.ok (), .writing fp c) := rfl
  rw [HuffmanFile.write, Routine.bind_of_ok hcheck]
  exact Routine.bind_of_fault (Routine.within_of_fault (load_compressor fp c) (hcompress hroom))

/-! ## Runs of calls -/

/-- How a run on the streams of `io.c` ends, if one on ideal streams ends with these replies. -/
def RunsAs (bufferSize : ℕ) (room : Prop) (calls : List FileCall)
    (h : FileHandle StreamPointer MemStream) (h' : FileHandle Fifo Fifo) : Prop :=
  ∃ replies last', runCalls (FileCall.run bufferSize) calls h' = .ok (replies, last') ∧
    (room → ∃ last, runCalls (FileCall.run bufferSize) calls h = .ok (replies, last) ∧
      last.shown = last'.shown) ∧
    (¬ room → runCalls (FileCall.run bufferSize) calls h = .error .outOfBounds)

/-- A call that both answer alike, in front of such a run. -/
theorem RunsAs.cons {room : Prop} {call : FileCall} {calls : List FileCall}
    {h s : FileHandle StreamPointer MemStream} {h' s' : FileHandle Fifo Fifo}
    {reply : Except PyException FileValue} (hcall : call.run bufferSize h = .ok (reply, s))
    (hcall' : call.run bufferSize h' = .ok (reply, s'))
    (hruns : RunsAs bufferSize room calls s s') : RunsAs bufferSize room (call :: calls) h h' := by
  rcases hruns with ⟨replies, last', hrun', hyes, hno⟩
  refine ⟨reply :: replies, last', ?_, fun hroom => ?_, fun hroom => ?_⟩
  · rw [runCalls_cons hcall', hrun']
    rfl
  · rcases hyes hroom with ⟨last, hrun, hshown⟩
    refine ⟨last, ?_, hshown⟩
    rw [runCalls_cons hcall, hrun]
    rfl
  · rw [runCalls_cons hcall, hno hroom]
    rfl

/-- A write that has room, to the file of a handle. -/
theorem run_write_fits (hblocksize : 2 * hufBtreeLen ≤ blocksize) (fp : Fifo)
    {c : HuffmanCompressor StreamPointer MemStream} {c' : HuffmanCompressor Fifo Fifo}
    (hcap : blocksize ≤ cap) (h : Working blocksize cap True c c') {kept : List UInt8}
    (hpending : HuffmanCompressor.Pending blocksize c' kept) (hkept : kept.length < blocksize)
    {data : List UInt8} (hroom : HasRoom blocksize cap kept.length data.length) :
    Alike (Overrun True)
      (HandlesAlike (FilesAt blocksize (grownFor blocksize cap kept.length data.length)))
      (fun _ => True) (FileCall.run bufferSize (.write data) ⟨.writing fp c, closefp, none⟩)
      (FileCall.run bufferSize (.write data) ⟨.writing fp c', closefp, none⟩) :=
  ((write_fits hblocksize fp hcap h hpending hkept hroom).within rfl rfl
    fun _ _ hf => ⟨hf, rfl, rfl⟩).bind_mirrors fun _ _ => Mirrors.pure trivial

/-- The end of a file that is written. -/
theorem run_close_alike (hblocksize : 2 * hufBtreeLen ≤ blocksize) (fp : Fifo)
    {c : HuffmanCompressor StreamPointer MemStream} {c' : HuffmanCompressor Fifo Fifo}
    (hcap : blocksize ≤ cap) (h : Working blocksize cap True c c') :
    Alike (Overrun True) (HandlesAlike (FilesAlike blocksize 0 True)) (fun _ => True)
      (FileCall.run bufferSize .close ⟨.writing fp c, closefp, none⟩)
      (FileCall.run bufferSize .close ⟨.writing fp c', closefp, none⟩) := by
  apply Alike.bind_mirrors
  · apply close_mirrors fun _ => hblocksize
    exact ⟨.writing (.working hcap h), rfl, rfl⟩
  · exact fun _ _ => Mirrors.pure trivial

/-- A closed file runs as the other does. -/
theorem runsAs_closed {h : FileHandle StreamPointer MemStream} {h' : FileHandle Fifo Fifo}
    (hr : HandlesAlike (FilesAlike blocksize 0 True) h h') (hclosed' : h'.file = .closed)
    (calls : List FileCall) : RunsAs bufferSize True calls h h' := by
  have hclosed : h.file = .closed := by
    have hfile := hr.file
    rw [hclosed'] at hfile
    generalize h.file = file at hfile
    cases hfile
    rfl
  refine ⟨calls.map FileCall.closedReply, h', runCalls_of_fixed (run_closed hclosed') calls,
    fun _ => ?_, fun hroom => absurd trivial hroom⟩
  exact ⟨h, runCalls_of_fixed (run_closed hclosed) calls, hr.shown.symm⟩

/-- A file that is written, with a compressor that keeps some bytes. -/
theorem runsAs_growing (hblocksize : 2 * hufBtreeLen ≤ blocksize) {calls : List FileCall}
    {stored kept : List UInt8} {h : FileHandle StreamPointer MemStream} {h' : FileHandle Fifo Fifo}
    (hr : HandlesAlike (FilesAt blocksize cap) h h')
    (hshown : Archive.Shown blocksize closefp calls (.growing stored kept) h') :
    RunsAs bufferSize
      (RoomFor blocksize cap kept.length ((FileCall.written calls).map List.length)) calls
      h h' := by
  have hpos : 0 < blocksize := Nat.lt_of_lt_of_le (by decide) hblocksize
  induction calls generalizing stored kept cap h h' with
  | nil =>
      have hsame := (@HandlesAlike.filesAlike blocksize cap 0 h h' hr).shown
      exact ⟨[], h', rfl, fun _ => ⟨h, rfl, hsame.symm⟩, fun hroom => absurd trivial hroom⟩
  | cons call calls ih =>
      rcases @Archive.refines blocksize bufferSize closefp hpos call calls _ h' hshown with
        ⟨s', hcall', hnext⟩
      rcases hshown with ⟨fp, c', rfl, -, hpending, hkept, -⟩
      rcases h with ⟨file, closefp', released⟩
      rcases hr with ⟨⟨fp', c, _, hfile, hfile', hcap, hc⟩, hclosefp, hreleased⟩
      cases hfile'
      obtain rfl : file = .writing fp c := hfile
      obtain rfl : closefp = closefp' := hclosefp
      obtain rfl : none = released := hreleased
      cases call with
      | write data =>
          by_cases hroom : HasRoom blocksize cap kept.length data.length
          · have hwrite := @run_write_fits blocksize cap bufferSize closefp hblocksize fp c c' hcap
              hc kept hpending hkept data hroom
            rw [hcall'] at hwrite
            rcases hwrite.eq_ok with ⟨fault, ⟨hnot, -⟩, -⟩ | ⟨s, hcall, hs⟩
            · exact absurd trivial hnot
            have hrest := ih hs hnext
            rw [length_lastPart, List.length_append, ← keptAfter_eq] at hrest
            show RunsAs bufferSize (HasRoom _ _ _ _ ∧ RoomFor _ _ _ _) _ _ _
            rw [and_iff_right hroom]
            exact RunsAs.cons hcall hcall' hrest
          · rcases (@Archive.refines blocksize bufferSize closefp hpos).runCalls hnext with
              ⟨last', hrun', -⟩
            have hideal := runCalls_cons hcall' calls
            rw [hrun'] at hideal
            refine ⟨_, last', hideal, fun h => absurd h.1 hroom, fun _ => ?_⟩
            apply runCalls_cons_of_fault
            have hwrite := write_overruns fp hcap hc hpending hkept hroom
            exact Routine.bind_of_fault (Routine.within_of_fault rfl hwrite)
      | close =>
          have hclose :=
            @run_close_alike blocksize cap bufferSize closefp hblocksize fp c c' hcap hc
          rw [hcall'] at hclose
          rcases hclose.eq_ok with ⟨fault, ⟨hnot, -⟩, -⟩ | ⟨s, hcall, hs⟩
          · exact absurd trivial hnot
          rcases hnext with ⟨fp', rfl, -⟩
          exact RunsAs.cons hcall hcall' (runsAs_closed hs rfl calls)
      | read _ | readable | writable | seekable | closed =>
          cases hcall'
          exact RunsAs.cons rfl rfl (ih ⟨⟨fp, c, c', rfl, rfl, hcap, hc⟩, rfl, rfl⟩ hnext)
      | fileno descriptor =>
          cases descriptor with
          | ok number =>
              cases hcall'
              exact RunsAs.cons rfl rfl (ih ⟨⟨fp, c, c', rfl, rfl, hcap, hc⟩, rfl, rfl⟩ hnext)
          | error exception =>
              cases hcall'
              exact RunsAs.cons rfl rfl (ih ⟨⟨fp, c, c', rfl, rfl, hcap, hc⟩, rfl, rfl⟩ hnext)

/-- Of a file that is opened for writing, with a blocksize that has room for a serialized tree,
the numbers of bytes that are written decide: where there is room for all of these every call
replies, stores and releases what it does on ideal streams, and otherwise a write copies past
the end of a block. -/
theorem runCalls_roomFor (hblocksize : 2 * hufBtreeLen ≤ blocksize) {heap : Heap}
    (halloc : heap.allocations = []) {mode : OpenMode} (hmode : mode ≠ .read) (fp : Fifo)
    (memlimit : ℕ) {calls : List FileCall}
    (hlen : (FileCall.written calls).flatten.length < 2 ^ 64)
    (hfits : ∀ block ∈ cut blocksize
      (HuffmanCompressor.takenBytes blocksize 0 (FileCall.written calls)), Fits block) :
    RunsAs bufferSize
      (RoomFor blocksize blocksize 0 ((FileCall.written calls).map List.length)) calls
      (FileHandle.init StreamPointer fp mode closefp blocksize memlimit heap)
      (FileHandle.init Fifo fp mode closefp blocksize memlimit heap) := by
  have hpos : 0 < blocksize := Nat.lt_of_lt_of_le (by decide) hblocksize
  have hshown := @shown_init blocksize memlimit closefp heap hpos halloc mode hmode fp calls hlen
    hfits
  exact runsAs_growing hblocksize (filesAt_init fp hmode closefp blocksize memlimit heap) hshown

/-- Two writes and a close. -/
theorem runCalls_roomFor_three :
    let calls : List FileCall := [.write [97, 98], .write [99], .close]
    ∃ replies last last', runCalls (FileCall.run 8192) calls
        (FileHandle.init Fifo Fifo.empty .write true 2048 0 emptyHeap) = .ok (replies, last') ∧
      runCalls (FileCall.run 8192) calls
        (FileHandle.init StreamPointer Fifo.empty .write true 2048 0 emptyHeap) =
          .ok (replies, last) ∧ last.shown = last'.shown := by
  intro calls
  have halloc : emptyHeap.allocations = [] := rfl
  have hmode : OpenMode.write ≠ .read := by decide
  have hlen : (FileCall.written calls).flatten.length < 2 ^ 64 := by decide
  have hfits : ∀ block ∈ cut 2048
      (HuffmanCompressor.takenBytes 2048 0 (FileCall.written calls)), Fits block := by
    rw [← blocksOf_of_pos (by decide)]
    exact (smallTrees_of_short (by decide)).fits (by decide)
  have hblocksize : 2 * hufBtreeLen ≤ 2048 := by decide
  rcases @runCalls_roomFor 2048 8192 true hblocksize emptyHeap halloc .write hmode Fifo.empty 0
    calls hlen hfits with ⟨replies, last', hideal, hyes, -⟩
  rcases hyes (by decide) with ⟨last, hrun, hshown⟩
  exact ⟨replies, last, last', hideal, hrun, hshown⟩

/-- Four writes to a file of the smallest safe blocksize: the last one has no room. -/
example : ¬ RoomFor 2048 2048 0 [2047, 4097, 2047, 16385] := by decide

/-- The same bytes have room if the last write is made first. -/
example : RoomFor 2048 2048 0 [16385, 2047, 4097, 2047] := by decide

end

end LibHuffman.Native
