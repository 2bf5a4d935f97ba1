/-
# Archives that grow

A file that is open for writing is an archive that grows: its calls answer as a machine does
that has what the file underneath stores and what is kept for the next block. Files that are
opened one after the other for appending, each with a blocksize of its own, make one archive,
and a single read gives back everything that was written to them.
-/

import LibHuffman.HuffmanFile.Session

namespace LibHuffman

open Foundation HuffmanCompressor

/-- A file that is open for writing, as its caller sees it: what the file underneath stores and
what is kept for the next block, until it is closed. -/
inductive Archive
  | growing (stored kept : List UInt8)
  | finished (stored : List UInt8)

namespace Archive

/-- What a call leaves with, and what it does to the archive. -/
def answer (blocksize : ℕ) (call : FileCall) :
    Archive → Except PyException FileValue × Archive
  | finished stored => (call.closedReply, finished stored)
  | growing stored kept =>
    match call with
    | .write data =>
      let bytes := kept ++ takenOf blocksize kept.length data
      (.ok (.count data.length), growing (stored ++ encoded blocksize (wholePart blocksize bytes))
        (lastPart blocksize bytes))
    | .close => (.ok .none, finished (stored ++ encoded blocksize kept))
    | .read _ =>
      (.error (.unsupportedOperation "File not open for reading"), growing stored kept)
    | .readable => (.ok (.flag false), growing stored kept)
    | .writable => (.ok (.flag true), growing stored kept)
    | .seekable => (.ok (.flag false), growing stored kept)
    | .closed => (.ok (.flag false), growing stored kept)
    | .fileno descriptor => (descriptor.map .count, growing stored kept)

/-- A handle that an archive is written with, where all bytes of the coming calls fit. -/
def Shown (blocksize : ℕ) (closefp : Bool) (calls : List FileCall) :
    Archive → FileHandle Fifo Fifo → Prop
  | growing stored kept, h => ∃ fp c, h = ⟨.writing fp c, closefp, none⟩ ∧ fp.stored = stored ∧
    Pending blocksize c kept ∧ kept.length < blocksize ∧
    (kept ++ (FileCall.written calls).flatten).length < 2 ^ 64 ∧
    ∀ block ∈ cut blocksize (kept ++ takenBytes blocksize kept.length (FileCall.written calls)),
      Fits block
  | finished stored, h => ∃ fp, h = ⟨.closed, false, some (fp, closefp)⟩ ∧ fp.stored = stored

section

variable {blocksize bufferSize : ℕ} {closefp : Bool}

/-- The bytes kept and the bytes taken from the next chunk are whole blocks and what is kept
from then on. -/
theorem append_takenBytes (blocksize : ℕ) (kept data : List UInt8) (chunks : List (List UInt8)) :
    kept ++ takenBytes blocksize kept.length (data :: chunks) =
      wholePart blocksize (kept ++ takenOf blocksize kept.length data) ++
        (lastPart blocksize (kept ++ takenOf blocksize kept.length data) ++
          takenBytes blocksize
            (lastPart blocksize (kept ++ takenOf blocksize kept.length data)).length chunks) := by
  rw [takenBytes, ← List.append_assoc, ← List.append_assoc, wholePart_append_lastPart,
    length_lastPart, List.length_append]

/-- Writing a chunk. -/
theorem write_shown (hpos : 0 < blocksize) {data : List UInt8} {calls : List FileCall}
    {stored kept : List UInt8} {h : FileHandle Fifo Fifo}
    (hshown : Shown blocksize closefp (.write data :: calls) (growing stored kept) h) :
    ∃ h', (FileCall.write data).run bufferSize h =
        .ok ((answer blocksize (.write data) (growing stored kept)).1, h') ∧
      Shown blocksize closefp calls (answer blocksize (.write data) (growing stored kept)).2
        h' := by
  rcases hshown with ⟨fp, c, rfl, rfl, hpending, hkept, hlen, hfits⟩
  rw [FileCall.written, append_takenBytes, cut_append hpos (dvd_length_wholePart _ _),
    List.forall_mem_append] at hfits
  rw [FileCall.written, List.flatten_cons, ← List.append_assoc, List.length_append] at hlen
  rcases hfits with ⟨hwhole, hlater⟩
  set bytes := kept ++ takenOf blocksize kept.length data with hbytes
  have hlenBytes : bytes.length ≤ (kept ++ data).length := by
    have htaken := takenOf_length_le blocksize kept.length data
    simp only [hbytes, List.length_append]
    omega
  have hlast := length_lastPart blocksize bytes
  have hcall : CompressPost blocksize bytes (compress data c) :=
    compress_post hpending hpos hkept (by omega)
  rcases hcall with ⟨-, c', hrun, hpending'⟩ | ⟨hnot, -⟩
  · refine ⟨⟨.writing (fp.write (encoded blocksize (wholePart blocksize bytes))) c', closefp, none⟩,
      ?_, _, c', rfl, rfl, hpending', ?_, ?_, hlater⟩
    · have hwrite : HuffmanFile.write data (.writing fp c) = .ok (.ok data.length,
          .writing (fp.write (encoded blocksize (wholePart blocksize bytes))) c') := by
        rw [HuffmanFile.write, Routine.bind_of_ok (a := ()) rfl,
          Routine.bind_of_ok (Routine.within_of_ok (s := c) rfl hrun)]
        rfl
      rw [FileCall.run, Routine.bind_of_ok (Routine.within_of_ok rfl hwrite)]
      rfl
    · rw [hlast]
      exact Nat.mod_lt _ hpos
    · have hmod : bytes.length % blocksize ≤ bytes.length := Nat.mod_le _ _
      rw [List.length_append, hlast]
      omega
  · exact absurd hwhole hnot

theorem close_shown (hpos : 0 < blocksize) {calls : List FileCall}
    {stored kept : List UInt8} {h : FileHandle Fifo Fifo}
    (hshown : Shown blocksize closefp (.close :: calls) (growing stored kept) h) :
    ∃ h', FileCall.close.run bufferSize h = .ok (.ok .none, h') ∧
      Shown blocksize closefp calls (finished (stored ++ encoded blocksize kept)) h' := by
  rcases hshown with ⟨fp, c, rfl, rfl, hpending, hkept, hlen, hfits⟩
  rw [FileCall.written, takenBytes, List.append_nil] at hfits
  rw [FileCall.written, List.flatten_nil, List.append_nil] at hlen
  rcases flush_eq hpending hpos hlen with ⟨-, c', hflush⟩ | ⟨hnot, -⟩
  · refine ⟨⟨.closed, false, some (fp.write (encoded blocksize kept), closefp)⟩, ?_, _, rfl, rfl⟩
    have hfinish : FileHandle.finish (.writing fp c) =
        .ok (.ok (), .writing (fp.write (encoded blocksize kept)) c') := by
      rw [FileHandle.finish, Routine.get_bind_apply]
      exact Routine.bind_of_ok (Routine.within_of_ok (s := c) rfl hflush)
    have hclose : FileHandle.close ⟨.writing fp c, closefp, none⟩ = .ok (.ok (),
        ⟨.closed, false, some (fp.write (encoded blocksize kept), closefp)⟩) := by
      rw [FileHandle.close, Routine.bind_of_ok (a := false) rfl, if_neg Bool.false_ne_true]
      exact Routine.ensuring_of_ok (Routine.within_of_ok rfl hfinish) rfl
    rw [FileCall.run, Routine.bind_of_ok hclose]
    rfl
  · exact absurd hfits hnot

/-- A call answers as the archive does. -/
theorem refines (hpos : 0 < blocksize) :
    Refines (Shown blocksize closefp) (FileCall.run bufferSize) (answer blocksize) := by
  intro call calls archive h hshown
  cases archive with
  | finished stored =>
      rcases hshown with ⟨fp, rfl, rfl⟩
      exact ⟨_, run_closed rfl call, fp, rfl, rfl⟩
  | growing stored kept =>
      cases call with
      | write data => exact write_shown hpos hshown
      | close => exact close_shown hpos hshown
      | read _ | readable | writable | seekable | closed =>
          rcases hshown with ⟨fp, c, rfl, hrest⟩
          exact ⟨_, rfl, fp, c, rfl, hrest⟩
      | fileno descriptor =>
          rcases hshown with ⟨fp, c, rfl, hrest⟩
          cases descriptor <;> exact ⟨_, rfl, fp, c, rfl, hrest⟩

theorem answerCalls_finished (calls : List FileCall) (stored : List UInt8) :
    (answerCalls (answer blocksize) calls (finished stored)).2 = finished stored := by
  induction calls with
  | nil => rfl
  | cons call calls ih => exact ih

/-- What an archive has in the end: the bytes that were taken before it was closed. -/
theorem answerCalls_growing (hpos : 0 < blocksize) {calls : List FileCall} (hclose : .close ∈ calls)
    {stored kept : List UInt8} (hkept : kept.length < blocksize) :
    (answerCalls (answer blocksize) calls (growing stored kept)).2 = finished (stored ++
      encoded blocksize (kept ++ takenBytes blocksize kept.length (FileCall.written calls))) := by
  induction calls generalizing stored kept with
  | nil => cases hclose
  | cons call calls ih =>
      have hlater : call ≠ .close → .close ∈ calls := fun hne =>
        (List.mem_cons.mp hclose).resolve_left hne.symm
      cases call with
      | close =>
          rw [FileCall.written, takenBytes, List.append_nil]
          exact answerCalls_finished calls _
      | write data =>
          rw [FileCall.written, append_takenBytes, encoded_append hpos (dvd_length_wholePart _ _),
            ← List.append_assoc]
          apply ih (hlater (by simp))
          rw [length_lastPart]
          exact Nat.mod_lt _ hpos
      | read _ | readable | writable | seekable | closed | fileno _ =>
          exact ih (hlater (by simp)) hkept

/-- The blocks of an archive are what was there before and the bytes that were taken, without
those that are kept for the next block. -/
def Holds (blocksize : ℕ) (before taken : List UInt8) : Archive → Prop
  | growing stored kept => ∃ shown, Blocks stored (before ++ shown) ∧ shown ++ kept = taken ∧
      kept.length < blocksize
  | finished stored => Blocks stored (before ++ taken)

/-- Every call adds to the archive what it takes. -/
theorem answerCalls_holds (hpos : 0 < blocksize) {calls : List FileCall}
    {before stored shown kept : List UInt8} (hblocks : Blocks stored (before ++ shown))
    (hkept : kept.length < blocksize)
    (hlen : (kept ++ takenBytes blocksize kept.length (FileCall.written calls)).length < 2 ^ 64)
    (hfits : ∀ block ∈ cut blocksize
      (kept ++ takenBytes blocksize kept.length (FileCall.written calls)), Fits block) :
    (answerCalls (answer blocksize) calls (growing stored kept)).2.Holds blocksize before
      (shown ++ (kept ++ takenBytes blocksize kept.length (FileCall.written calls))) := by
  induction calls generalizing stored shown kept with
  | nil =>
      rw [FileCall.written, takenBytes, List.append_nil]
      exact ⟨shown, hblocks, rfl, hkept⟩
  | cons call calls ih =>
      cases call with
      | close =>
          rw [FileCall.written, takenBytes, List.append_nil] at hlen hfits ⊢
          rw [← blocksOf_of_pos hpos] at hfits
          show (answerCalls (answer blocksize) calls (finished _)).2.Holds _ _ _
          rw [answerCalls_finished, Holds, ← List.append_assoc]
          exact hblocks.append (blocks_encoded hlen hfits)
      | write data =>
          rw [FileCall.written, append_takenBytes] at hlen hfits ⊢
          rw [List.length_append] at hlen
          rw [cut_append hpos (dvd_length_wholePart _ _), List.forall_mem_append,
            ← blocksOf_of_pos hpos] at hfits
          have hmore := hblocks.append (blocks_encoded (by omega) hfits.1)
          rw [List.append_assoc] at hmore
          rw [← List.append_assoc]
          apply ih hmore _ (by omega) hfits.2
          rw [length_lastPart]
          exact Nat.mod_lt _ hpos
      | read _ | readable | writable | seekable | closed | fileno _ =>
          exact ih hblocks hkept hlen hfits

end

end Archive

section

variable {blocksize memlimit bufferSize : ℕ} {closefp : Bool} {heap : Heap}

/-- A file that is opened for writing shows an archive that grows. -/
theorem shown_init (hpos : 0 < blocksize) (halloc : heap.allocations = []) {mode : OpenMode}
    (hmode : mode ≠ .read) (fp : Fifo) {calls : List FileCall}
    (hlen : (FileCall.written calls).flatten.length < 2 ^ 64)
    (hfits : ∀ block ∈ cut blocksize (takenBytes blocksize 0 (FileCall.written calls)),
      Fits block) :
    Archive.Shown blocksize closefp calls (.growing fp.stored [])
      (FileHandle.init Fifo fp mode closefp blocksize memlimit heap) := by
  rw [FileHandle.init_of_ne_read fp hmode]
  exact ⟨fp, _, rfl, rfl, pending_init blocksize halloc, hpos, hlen, hfits⟩

/-- A file that is opened for writing answers every sequence of calls as the archive does that
begins with what it stores, as long as what is written fits. Once it is closed it has in
addition the archive of the bytes that were taken. -/
theorem runCalls_archive (hpos : 0 < blocksize) (halloc : heap.allocations = []) {mode : OpenMode}
    (hmode : mode ≠ .read) (fp : Fifo) {calls : List FileCall}
    (hlen : (FileCall.written calls).flatten.length < 2 ^ 64)
    (hfits : ∀ block ∈ cut blocksize (takenBytes blocksize 0 (FileCall.written calls)),
      Fits block) :
    ∃ h, runCalls (FileCall.run bufferSize) calls
        (FileHandle.init Fifo fp mode closefp blocksize memlimit heap) = .ok ((answerCalls
          (Archive.answer blocksize) calls (.growing fp.stored [])).1, h) ∧
      Archive.Shown blocksize closefp []
        (answerCalls (Archive.answer blocksize) calls (.growing fp.stored [])).2 h ∧
      (.close ∈ calls → ∃ fp', h = ⟨.closed, false, some (fp', closefp)⟩ ∧ fp'.stored =
        fp.stored ++ encoded blocksize (takenBytes blocksize 0 (FileCall.written calls))) := by
  have hstart : Archive.Shown blocksize closefp calls (.growing fp.stored [])
      (FileHandle.init Fifo fp mode closefp blocksize memlimit heap) :=
    shown_init hpos halloc hmode fp hlen hfits
  rcases (Archive.refines hpos).runCalls hstart with ⟨h, hrun, hshown⟩
  refine ⟨h, hrun, hshown, fun hclose => ?_⟩
  have hempty : ([] : List UInt8).length < blocksize := hpos
  rw [Archive.answerCalls_growing hpos hclose hempty] at hshown
  exact hshown

end

/-- Five bytes in two chunks behind two other bytes, with calls that raise exceptions before and
after the file is closed. -/
theorem runCalls_archive_five :
    let calls : List FileCall :=
      [.write [97], .read 3, .write [98, 99, 100, 101], .close, .write [102], .closed]
    ∃ h fp, runCalls (FileCall.run 8192) calls
        (FileHandle.init Fifo ⟨[7, 7], 0⟩ .append true 4 131072 emptyHeap) =
          .ok ([.ok (.count 1), .error (.unsupportedOperation "File not open for reading"),
            .ok (.count 4), .ok .none, .error (.valueError "I/O operation on closed file"),
            .ok (.flag true)], h) ∧
      h = ⟨.closed, false, some (fp, true)⟩ ∧
      fp.stored = [7, 7] ++ encoded 4 [97, 98, 99, 100, 101] := by
  intro calls
  have hfits : ∀ block ∈ cut 4 [97, 98, 99, 100, 101], Fits block := by
    rw [← blocksOf_of_pos (by decide)]
    exact (smallTrees_of_short (by decide)).fits (by decide)
  have hmode : OpenMode.append ≠ .read := by decide
  have halloc : emptyHeap.allocations = [] := rfl
  have hlen : (FileCall.written calls).flatten.length < 2 ^ 64 := by decide
  rcases @runCalls_archive 4 131072 8192 true emptyHeap (by decide) halloc .append hmode
    ⟨[7, 7], 0⟩ calls hlen hfits with ⟨h, hrun, -, hclosed⟩
  rcases hclosed (by decide) with ⟨fp, hh, hstored⟩
  exact ⟨h, fp, hrun, hh, hstored⟩

/-! ## Sessions -/

/-- A file that is opened for appending: its blocksize, and the calls until it is closed. -/
structure WriteSession where
  blocksize : ℕ
  calls : List FileCall

namespace WriteSession

/-- What is written in a session. -/
def data (s : WriteSession) : List UInt8 := (FileCall.written s.calls).flatten

/-- What the compressor of a session takes. -/
def taken (s : WriteSession) : List UInt8 :=
  takenBytes s.blocksize 0 (FileCall.written s.calls)

/-- A session in which what is taken fits. -/
structure Fitting (s : WriteSession) : Prop where
  blocksize_pos : 0 < s.blocksize
  length_data : s.data.length < 2 ^ 63
  small : SmallTrees s.blocksize s.taken

theorem length_taken_le (s : WriteSession) : s.taken.length ≤ s.data.length :=
  takenBytes_length_le s.blocksize 0 (FileCall.written s.calls)

/-- Everything is taken if and only if every chunk is. -/
theorem flatMap_taken_eq_iff (sessions : List WriteSession) :
    sessions.flatMap taken = sessions.flatMap data ↔
      ∀ s ∈ sessions, KeepsChunks s.blocksize 0 (FileCall.written s.calls) := by
  have hlength : ∀ sessions : List WriteSession,
      (sessions.flatMap taken).length ≤ (sessions.flatMap data).length := by
    intro sessions
    induction sessions with
    | nil => exact Nat.le_refl _
    | cons s sessions ih =>
        have hle := s.length_taken_le
        simp only [List.flatMap_cons, List.length_append]
        omega
  induction sessions with
  | nil => simp
  | cons s sessions ih =>
      have hle := s.length_taken_le
      have hrest := hlength sessions
      rw [List.flatMap_cons, List.flatMap_cons, List.forall_mem_cons]
      refine Iff.trans ?_ (and_congr takenBytes_eq_iff ih)
      apply Iff.intro
      · intro h
        have hlen := congrArg List.length h
        rw [List.length_append, List.length_append] at hlen
        have htaken : s.taken.length = s.data.length := by omega
        exact List.append_inj h htaken
      · rintro ⟨htaken, hsessions⟩
        rw [hsessions]
        exact congrArg (· ++ sessions.flatMap data) htaken

end WriteSession

/-- Open the file for appending, make the calls of a session and close it, and so on. -/
def runSessions (defaultBufferSize memlimit : ℕ) (heap : Heap) :
    List WriteSession → List UInt8 → Except Fault (List UInt8)
  | [], content => .ok content
  | s :: sessions, content => do
    let (_, h) ← runCalls (FileCall.run defaultBufferSize) (s.calls ++ [.close])
      (FileHandle.init Fifo ⟨content, 0⟩ .append true s.blocksize memlimit heap)
    runSessions defaultBufferSize memlimit heap sessions h.stored

section

variable {bufferSize memlimit : ℕ} {heap : Heap}

theorem FileCall.written_append_close (calls : List FileCall) :
    written (calls ++ [.close]) = written calls := by
  induction calls with
  | nil => rfl
  | cons call calls ih =>
      cases call with
      | write data => exact congrArg (data :: ·) ih
      | close => rfl
      | read _ | readable | writable | seekable | closed | fileno _ => exact ih

/-- Blocks followed by sessions are blocks. -/
theorem blocks_runSessions (halloc : heap.allocations = []) {sessions : List WriteSession}
    (hfitting : ∀ s ∈ sessions, s.Fitting) {content symbols : List UInt8}
    (hblocks : Blocks content symbols) :
    ∃ content', runSessions bufferSize memlimit heap sessions content = .ok content' ∧
      Blocks content' (symbols ++ sessions.flatMap WriteSession.taken) := by
  induction sessions generalizing content symbols with
  | nil => exact ⟨content, rfl, by simpa using hblocks⟩
  | cons s sessions ih =>
      rcases List.forall_mem_cons.mp hfitting with ⟨hs, hlater⟩
      have hle := s.length_taken_le
      have hlength := hs.length_data
      have hfits := hs.small.fits (by omega)
      have hmore := hblocks.append (blocks_encoded (by omega) hfits)
      rcases ih hlater hmore with ⟨content', hrun, hblocks'⟩
      refine ⟨content', ?_, by rwa [List.flatMap_cons, ← List.append_assoc]⟩
      rw [blocksOf_of_pos hs.blocksize_pos] at hfits
      have hwritten := FileCall.written_append_close s.calls
      have happend : OpenMode.append ≠ .read := by decide
      have hempty : ([] : List UInt8).length < s.blocksize := hs.blocksize_pos
      have hstart : Archive.Shown s.blocksize true (s.calls ++ [.close]) (.growing content [])
          (FileHandle.init Fifo ⟨content, 0⟩ .append true s.blocksize memlimit heap) := by
        apply shown_init hs.blocksize_pos halloc happend ⟨content, 0⟩
        · rw [hwritten]
          exact Nat.lt_of_lt_of_le hlength (by decide)
        · rwa [hwritten]
      rcases (Archive.refines hs.blocksize_pos).runCalls hstart with ⟨h, hcalls, hshown⟩
      rw [Archive.answerCalls_growing hs.blocksize_pos (by simp) hempty, hwritten] at hshown
      rcases hshown with ⟨fp, rfl, hstored⟩
      rw [runSessions, hcalls]
      have hcontent : fp.stored = content ++ encoded s.blocksize s.taken := hstored
      exact (congrArg (runSessions bufferSize memlimit heap sessions) hcontent).trans hrun

/-- Files that are opened one after the other for appending, each with a blocksize of its own
and any calls, are one archive: a read of it all gives back what was written in all sessions,
in order, if and only if no session has lost a part of a chunk. -/
theorem read_runSessions (halloc : heap.allocations = []) {sessions : List WriteSession}
    (hfitting : ∀ s ∈ sessions, s.Fitting) :
    ∃ content, runSessions bufferSize memlimit heap sessions [] = .ok content ∧
      ∀ (size : ℤ) (blocksize memlimit : ℕ),
        content.length ≤ HuffmanFile.requested bufferSize size →
        ((∃ f, HuffmanFile.read bufferSize size
            (HuffmanFile.init Fifo ⟨content, 0⟩ .read blocksize memlimit heap) =
              .ok (.ok (sessions.flatMap WriteSession.data), f)) ↔
          ∀ s ∈ sessions, KeepsChunks s.blocksize 0 (FileCall.written s.calls)) := by
  rcases blocks_runSessions halloc hfitting .nil with ⟨content, hrun, hblocks⟩
  refine ⟨content, hrun, fun size blocksize memlimit hsize => ?_⟩
  rw [← WriteSession.flatMap_taken_eq_iff]
  have hready := HuffmanDecompressor.ready_init memlimit heap halloc
  rcases HuffmanDecompressor.decompress_first hready hblocks with ⟨d, hdecompress, -⟩
  have hread : HuffmanFile.read bufferSize size
      (HuffmanFile.init Fifo ⟨content, 0⟩ .read blocksize memlimit heap) =
        .ok (.ok (sessions.flatMap WriteSession.taken),
          .reading (Fifo.advance (HuffmanFile.requested bufferSize size) ⟨content, 0⟩) d) := by
    apply HuffmanFile.read_of_ok
    rw [show (⟨content, 0⟩ : Fifo).unread = content from rfl, List.take_of_length_le hsize]
    exact hdecompress
  apply Iff.intro
  · rintro ⟨f, hall⟩
    have hsame := Except.ok.inj (hread.symm.trans hall)
    exact Except.ok.inj (Prod.mk.inj hsame).1
  · intro hall
    exact ⟨_, hall ▸ hread⟩

end

/-- A session with two chunks in blocks of four, and one with blocks of two. -/
theorem read_runSessions_two :
    let sessions : List WriteSession :=
      [⟨4, [.write [97], .write [98, 99, 100, 101]]⟩, ⟨2, [.write [1, 2, 3], .readable]⟩]
    ∃ content f, runSessions 8192 131072 emptyHeap sessions [] = .ok content ∧
      HuffmanFile.read 8192 content.length
        (HuffmanFile.init Fifo ⟨content, 0⟩ .read 131072 131072 emptyHeap) =
          .ok (.ok [97, 98, 99, 100, 101, 1, 2, 3], f) := by
  intro sessions
  have hfitting : ∀ s ∈ sessions, s.Fitting := by
    intro s hs
    simp only [sessions, List.mem_cons, List.not_mem_nil, or_false] at hs
    rcases hs with rfl | rfl
    · exact ⟨by decide, by decide, smallTrees_of_short (by decide)⟩
    · exact ⟨by decide, by decide, smallTrees_of_short (by decide)⟩
  have halloc : emptyHeap.allocations = [] := rfl
  rcases @read_runSessions 8192 131072 emptyHeap halloc sessions hfitting with
    ⟨content, hrun, hread⟩
  have hsize : content.length ≤ HuffmanFile.requested 8192 content.length := by
    rw [HuffmanFile.requested, if_neg (by omega), Int.toNat_natCast]
  rcases (hread _ 131072 131072 hsize).mpr (by simp [sessions, FileCall.written, KeepsChunks]) with
    ⟨f, hall⟩
  exact ⟨content, f, hrun, hall⟩

/-! ## The functions of the module -/

/-- `compress` writes an archive of all it is given. -/
theorem compress_eq_encoded {blocksize : ℕ} {heap : Heap} (halloc : heap.allocations = [])
    (hpos : 0 < blocksize) {data : List UInt8} (hlen : data.length < 2 ^ 64)
    (hfits : ∀ block ∈ blocksOf blocksize data, Fits block) :
    ∃ c, Huffmanfile.compress Fifo data blocksize heap = .ok (.ok (encoded blocksize data), c) := by
  have htaken : takenBytes blocksize 0 [data] = data := by simp [takenBytes, takenOf]
  have hlt : [data].flatten.length < 2 ^ 64 := by simpa using hlen
  have hrun := compressChunks_eq (pending_init blocksize halloc) hpos hlt
  rw [htaken, ← blocksOf_of_pos hpos] at hrun
  rcases hrun with ⟨-, c, hchunks⟩ | ⟨hnot, -⟩
  · rcases Routine.bind_eq_ok hchunks with ⟨encodings, c₁, hall, hlater⟩
    rcases Routine.bind_eq_ok hlater with ⟨last, c₂, hflush, hpure⟩
    rcases Routine.bind_eq_ok hall with ⟨first, c₃, hfirst, hnil⟩
    cases hnil
    rw [List.flatten_cons, List.flatten_nil, List.append_nil] at hpure
    refine ⟨c, ?_⟩
    rw [Huffmanfile.compress, Routine.bind_of_ok hfirst, Routine.bind_of_ok hflush]
    exact hpure
  · exact absurd hfits hnot

/-- `decompress` gives all symbols of an archive. -/
theorem decompress_of_blocks (memlimit : ℕ) {heap : Heap} (halloc : heap.allocations = [])
    {content symbols : List UInt8} (h : Blocks content symbols) :
    ∃ d, Huffmanfile.decompress Fifo content memlimit heap = .ok (.ok symbols, d) := by
  have hready := HuffmanDecompressor.ready_init memlimit heap halloc
  rcases HuffmanDecompressor.decompress_first hready h with ⟨d, hdecompress, -⟩
  exact ⟨_, Routine.bind_of_ok hdecompress⟩

/-! ## Archives that are read while they grow -/

/-- At every moment of the writing of a file, before it is closed or after, the file underneath
can be decompressed. It gives what was there before and the bytes that were taken, of which
fewer than a block are missing, and none once the file is closed. -/
theorem decompress_runCalls {blocksize memlimit memlimit' bufferSize : ℕ} {closefp : Bool}
    {heap heap' : Heap} (hpos : 0 < blocksize) (halloc : heap.allocations = [])
    (halloc' : heap'.allocations = []) {mode : OpenMode} (hmode : mode ≠ .read)
    {content symbols : List UInt8} (hblocks : Blocks content symbols) {calls : List FileCall}
    (hlen : (FileCall.written calls).flatten.length < 2 ^ 64)
    (hfits : ∀ block ∈ cut blocksize (takenBytes blocksize 0 (FileCall.written calls)),
      Fits block) :
    ∃ answers h shown d, runCalls (FileCall.run bufferSize) calls
        (FileHandle.init Fifo ⟨content, 0⟩ mode closefp blocksize memlimit heap) =
          .ok (answers, h) ∧
      Huffmanfile.decompress Fifo h.stored memlimit' heap' = .ok (.ok (symbols ++ shown), d) ∧
      shown <+: takenBytes blocksize 0 (FileCall.written calls) ∧
      (takenBytes blocksize 0 (FileCall.written calls)).length < shown.length + blocksize ∧
      (.close ∈ calls → shown = takenBytes blocksize 0 (FileCall.written calls)) := by
  have hstart := @shown_init blocksize memlimit closefp heap hpos halloc mode hmode ⟨content, 0⟩
    calls hlen hfits
  rcases (@Archive.refines blocksize bufferSize closefp hpos).runCalls hstart with
    ⟨h, hrun, hshown⟩
  have htaken := takenBytes_length_le blocksize 0 (FileCall.written calls)
  have hempty : ([] : List UInt8).length < blocksize := hpos
  have hbefore : Blocks content (symbols ++ []) := by rwa [List.append_nil]
  have hholds := Archive.answerCalls_holds hpos hbefore hempty (lt_of_le_of_lt htaken hlen) hfits
  have hfinal : .close ∈ calls → _ := fun hclose =>
    @Archive.answerCalls_growing blocksize hpos calls hclose content [] hempty
  have hopen {stored taken : List UInt8} (hstored : Blocks stored taken) : ∃ d,
      Huffmanfile.decompress Fifo stored memlimit' heap' = .ok (.ok taken, d) :=
    decompress_of_blocks memlimit' halloc' hstored
  rw [List.nil_append, List.nil_append, List.length_nil] at hholds
  generalize (answerCalls (Archive.answer blocksize) calls (.growing content [])).2 = archive
    at hshown hholds hfinal
  cases archive with
  | growing stored kept =>
      rcases hshown with ⟨fp, c, rfl, rfl, -⟩
      rcases hholds with ⟨shown, hshown, hsplit, hkept⟩
      rcases hopen hshown with ⟨d, hdecompress⟩
      refine ⟨_, _, shown, d, hrun, hdecompress, ⟨kept, hsplit⟩, ?_, fun hclose => ?_⟩
      · rw [← hsplit, List.length_append]
        omega
      · cases hfinal hclose
  | finished stored =>
      rcases hshown with ⟨fp, rfl, rfl⟩
      rcases hopen hholds with ⟨d, hdecompress⟩
      exact ⟨_, _, _, d, hrun, hdecompress, List.prefix_refl _, Nat.lt_add_of_pos_right hpos,
        fun _ => rfl⟩

/-- Behind a block of one symbol, six bytes in blocks of four, and the file is still open. -/
theorem decompress_runCalls_six :
    let content : List UInt8 :=
      [1, 0, 0, 0, 0, 0, 0, 0, 5, 0, 0, 1, 49, 0, 255, 255, 255, 255, 255, 255, 0]
    let calls : List FileCall := [.write [97, 98], .closed, .write [99, 100, 101, 102]]
    ∃ answers h shown d, runCalls (FileCall.run 8192) calls
        (FileHandle.init Fifo ⟨content, 0⟩ .append true 4 131072 emptyHeap) = .ok (answers, h) ∧
      Huffmanfile.decompress Fifo h.stored 131072 emptyHeap = .ok (.ok ([49] ++ shown), d) ∧
      shown <+: [97, 98, 99, 100, 101, 102] ∧ 6 < shown.length + 4 := by
  intro content calls
  have hblocks : Blocks content [49] := blocks_of_readBlock (by decide)
  have hmode : OpenMode.append ≠ .read := by decide
  have hlen : (FileCall.written calls).flatten.length < 2 ^ 64 := by decide
  have hfits : ∀ block ∈ cut 4 [97, 98, 99, 100, 101, 102], Fits block := by
    rw [← blocksOf_of_pos (by decide)]
    exact (smallTrees_of_short (by decide)).fits (by decide)
  rcases @decompress_runCalls 4 131072 131072 8192 true emptyHeap emptyHeap (by decide) rfl rfl
    .append hmode content [49] hblocks calls hlen hfits with
    ⟨answers, h, shown, d, hrun, hread, hpre, hmissing, -⟩
  exact ⟨answers, h, shown, d, hrun, hread, hpre, hmissing⟩

end LibHuffman
