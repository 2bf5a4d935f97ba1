/-
# A file between its opening and its end

A caller makes calls of a `HuffmanFile` in any order, and goes on where one of them raises an
exception. Closing is final. A file that is open for writing is an archive that grows: what is
in the file underneath and what is kept for the next block follow from the calls alone.
-/

import LibHuffman.Foundation.Calls
import LibHuffman.Foundation.Triple
import LibHuffman.HuffmanFile.Chunks
import LibHuffman.HuffmanFile.Reading

namespace LibHuffman

open Foundation

/-- The calls of a file. What `fileno` of the file underneath leaves with is a part of the call. -/
inductive FileCall
  | read (size : ℤ)
  | write (data : List UInt8)
  | close
  | readable
  | writable
  | seekable
  | closed
  | fileno (descriptor : Except PyException ℕ)
  deriving DecidableEq

/-- What the calls return. -/
inductive FileValue
  | none
  | bytes (data : List UInt8)
  | count (number : ℕ)
  | flag (value : Bool)
  deriving DecidableEq

namespace FileCall

/-- The call, with the default size of a buffer. -/
def run {κ μ : Type} [MemoryStreams κ μ] (defaultBufferSize : ℕ) :
    FileCall → PyRoutine (FileHandle κ μ) FileValue
  | read size => do
    let data ← Routine.within FileHandle.filePlace (HuffmanFile.read defaultBufferSize size)
    return .bytes data
  | write data => do
    let length ← Routine.within FileHandle.filePlace (HuffmanFile.write data)
    return .count length
  | close => do
    FileHandle.close
    return .none
  | readable => do
    let value ← Routine.within FileHandle.filePlace HuffmanFile.readable
    return .flag value
  | writable => do
    let value ← Routine.within FileHandle.filePlace HuffmanFile.writable
    return .flag value
  | seekable => do
    let value ← Routine.within FileHandle.filePlace HuffmanFile.seekable
    return .flag value
  | closed => do
    let value ← FileHandle.closed
    return .flag value
  | fileno descriptor => do
    let number ← Routine.within FileHandle.filePlace (HuffmanFile.fileno descriptor)
    return .count number

/-- What the call leaves with once the file is closed. -/
def closedReply : FileCall → Except PyException FileValue
  | close => .ok .none
  | seekable => .ok (.flag false)
  | closed => .ok (.flag true)
  | read _ => .error (.valueError "I/O operation on closed file")
  | write _ => .error (.valueError "I/O operation on closed file")
  | readable => .error (.valueError "I/O operation on closed file")
  | writable => .error (.valueError "I/O operation on closed file")
  | fileno _ => .error (.valueError "I/O operation on closed file")

/-- The bytes that the calls before the first `close` write. -/
def written : List FileCall → List (List UInt8)
  | [] => []
  | write data :: calls => data :: written calls
  | close :: _ => []
  | _ :: calls => written calls

end FileCall

/-! ## What every call keeps -/

/-- A file after some calls that did not close it: it is in the same mode, the file underneath
has what it had, and more only where it is written. -/
inductive HuffmanFile.Continues : HuffmanFile Fifo Fifo → HuffmanFile Fifo Fifo → Prop
  | closed : Continues .closed .closed
  | reading {fp fp' : Fifo} {d d' : HuffmanDecompressor Fifo Fifo}
      (hstored : fp'.stored = fp.stored) : Continues (.reading fp d) (.reading fp' d')
  | writing {fp fp' : Fifo} {c c' : HuffmanCompressor Fifo Fifo}
      (hstored : fp.stored <+: fp'.stored) : Continues (.writing fp c) (.writing fp' c')

namespace HuffmanFile

variable {f : HuffmanFile Fifo Fifo}

theorem Continues.refl (f : HuffmanFile Fifo Fifo) : Continues f f := by
  cases f with
  | closed => exact .closed
  | reading fp d => exact .reading rfl
  | writing fp c => exact .writing (List.prefix_refl _)

theorem checkCanRead_same (f : HuffmanFile Fifo Fifo) : ∃ r, checkCanRead f = .ok (r, f) := by
  cases f <;> exact ⟨_, rfl⟩

theorem checkCanWrite_same (f : HuffmanFile Fifo Fifo) : ∃ r, checkCanWrite f = .ok (r, f) := by
  cases f <;> exact ⟨_, rfl⟩

theorem within_decompressor_continues {α : Type} (x : PyRoutine (HuffmanDecompressor Fifo Fifo) α) :
    Triple (Continues f) (Routine.within decompressorPlace x) (fun _ => Continues f)
      fun _ => Continues f := by
  apply Triple.within
  intro f' hf' d hload
  cases hf' with
  | closed => cases hload
  | writing hstored => cases hload
  | reading hstored => exact ⟨fun _ _ _ => .reading hstored, fun _ _ _ => .reading hstored⟩

theorem within_compressor_continues {α : Type} (x : PyRoutine (HuffmanCompressor Fifo Fifo) α) :
    Triple (Continues f) (Routine.within compressorPlace x) (fun _ => Continues f)
      fun _ => Continues f := by
  apply Triple.within
  intro f' hf' c hload
  cases hf' with
  | closed => cases hload
  | reading hstored => cases hload
  | writing hstored => exact ⟨fun _ _ _ => .writing hstored, fun _ _ _ => .writing hstored⟩

theorem fpRead_continues (size : ℕ) :
    Triple (Continues f) (Routine.within fpPlace (fpRead size)) (fun _ => Continues f)
      fun _ => Continues f := by
  apply Triple.within
  intro f' hf' fp hload
  cases hf' with
  | closed => cases hload
  | writing hstored => cases hload
  | reading hstored =>
      cases hload
      refine ⟨fun _ _ hrun => ?_, fun _ _ hrun => by cases hrun⟩
      cases hrun
      exact .reading hstored

theorem fpWrite_continues (data : List UInt8) :
    Triple (Continues f) (Routine.within writtenFpPlace (fpWrite data)) (fun _ => Continues f)
      fun _ => Continues f := by
  apply Triple.within
  intro f' hf' fp hload
  cases hf' with
  | closed => cases hload
  | reading hstored => cases hload
  | writing hstored =>
      cases hload
      refine ⟨fun _ _ hrun => ?_, fun _ _ hrun => by cases hrun⟩
      cases hrun
      exact .writing (hstored.trans (List.prefix_append _ _))

theorem read_continues (bufferSize : ℕ) (size : ℤ) :
    Triple (Continues f) (read bufferSize size) (fun _ => Continues f) fun _ => Continues f := by
  apply (Triple.of_same checkCanRead_same).bind
  intro _
  apply (fpRead_continues _).bind
  intro data
  exact within_decompressor_continues _

theorem write_continues (data : List UInt8) :
    Triple (Continues f) (write data) (fun _ => Continues f) fun _ => Continues f := by
  apply (Triple.of_same checkCanWrite_same).bind
  intro _
  apply (within_compressor_continues _).bind
  intro compressed
  apply (fpWrite_continues _).bind
  intro _
  exact Triple.pure fun _ hf => hf

end HuffmanFile

theorem FileHandle.finish_continues (f : HuffmanFile Fifo Fifo) :
    Triple (HuffmanFile.Continues f) finish (fun _ => HuffmanFile.Continues f)
      fun _ => HuffmanFile.Continues f := by
  apply Triple.get_bind
  rintro (_ | ⟨fp, d⟩ | ⟨fp, c⟩)
  · exact Triple.pure fun _ hs => hs.2
  · apply (HuffmanFile.within_decompressor_continues _).strengthen
    exact fun _ hs => hs.2
  · apply Triple.bind (Q := fun _ => HuffmanFile.Continues f)
    · apply (HuffmanFile.within_compressor_continues _).strengthen
      exact fun _ hs => hs.2
    · exact HuffmanFile.fpWrite_continues

/-! ## Closing -/

/-- A handle after some calls, where it was opened in a mode on a file underneath: that one has
what it had, and more only where it is written, and once the handle is closed it is closed as
well if it was opened with the handle. -/
inductive FileHandle.Reached (fp : Fifo) (closefp : Bool) : OpenMode → FileHandle Fifo Fifo → Prop
  | reading {fp' : Fifo} {d : HuffmanDecompressor Fifo Fifo} (hstored : fp'.stored = fp.stored) :
      Reached fp closefp .read ⟨.reading fp' d, closefp, none⟩
  | writing {mode : OpenMode} {fp' : Fifo} {c : HuffmanCompressor Fifo Fifo} (hmode : mode ≠ .read)
      (hstored : fp.stored <+: fp'.stored) :
      Reached fp closefp mode ⟨.writing fp' c, closefp, none⟩
  | closed {mode : OpenMode} {fp' : Fifo} (hstored : fp.stored <+: fp'.stored)
      (hread : mode = .read → fp'.stored = fp.stored) :
      Reached fp closefp mode ⟨.closed, false, some (fp', closefp)⟩

section

variable {bufferSize : ℕ} {fp : Fifo} {closefp : Bool} {mode : OpenMode}
  {h h' : FileHandle Fifo Fifo}

theorem FileHandle.reached_init (fp : Fifo) (mode : OpenMode) (closefp : Bool)
    (blocksize memlimit : ℕ) (heap : Heap) :
    Reached fp closefp mode (init Fifo fp mode closefp blocksize memlimit heap) := by
  cases mode with
  | read => exact .reading rfl
  | write => exact .writing nofun (List.prefix_refl _)
  | exclusive => exact .writing nofun (List.prefix_refl _)
  | append => exact .writing nofun (List.prefix_refl _)

theorem FileHandle.Reached.of_continues (hr : Reached fp closefp mode h) {f : HuffmanFile Fifo Fifo}
    (hf : HuffmanFile.Continues h.file f) : Reached fp closefp mode { h with file := f } := by
  cases hr with
  | reading hstored =>
      cases hf with
      | reading hsame => exact .reading (hsame.trans hstored)
  | writing hmode hstored =>
      cases hf with
      | writing hmore => exact .writing hmode (hstored.trans hmore)
  | closed hstored hread =>
      cases hf with
      | closed => exact .closed hstored hread

/-- A method that only continues the file. -/
theorem FileHandle.within_reached {α : Type} {x : PyRoutine (HuffmanFile Fifo Fifo) α}
    (hx : ∀ f, Triple (HuffmanFile.Continues f) x (fun _ => HuffmanFile.Continues f)
      fun _ => HuffmanFile.Continues f) :
    Triple (Reached fp closefp mode) (Routine.within filePlace x)
      (fun _ => Reached fp closefp mode) fun _ => Reached fp closefp mode := by
  apply Triple.within
  intro h hr
  apply (hx h.file).mono
  · rintro _ ⟨⟩
    exact HuffmanFile.Continues.refl _
  · exact fun _ _ hf => hr.of_continues hf
  · exact fun _ _ hf => hr.of_continues hf

theorem FileHandle.Reached.letGo (hr : Reached fp closefp mode h) :
    Reached fp closefp mode h.letGo ∧ h.letGo.file = .closed := by
  cases hr with
  | reading hstored => exact ⟨.closed (by simp [hstored]) fun _ => hstored, rfl⟩
  | writing hmode hstored => exact ⟨.closed hstored fun hread => absurd hread hmode, rfl⟩
  | closed hstored hread => exact ⟨.closed hstored hread, rfl⟩

theorem FileHandle.closed_cases (h : FileHandle Fifo Fifo) :
    closed h = .ok (.ok false, h) ∨ closed h = .ok (.ok true, h) ∧ h.file = .closed := by
  rcases h with ⟨file, closefp, released⟩
  cases file with
  | closed => exact .inr ⟨rfl, rfl⟩
  | reading fp d => exact .inl rfl
  | writing fp c => exact .inl rfl

theorem FileHandle.closed_same (h : FileHandle Fifo Fifo) : ∃ r, closed h = .ok (r, h) := by
  rcases closed_cases h with hopen | ⟨hclosed, -⟩
  · exact ⟨_, hopen⟩
  · exact ⟨_, hclosed⟩

/-- Wherever `close` ends, the file is closed. -/
theorem FileHandle.close_reached :
    Triple (Reached fp closefp mode) close
      (fun _ h => Reached fp closefp mode h ∧ h.file = .closed)
      fun _ h => Reached fp closefp mode h ∧ h.file = .closed := by
  have hfinally : Triple (Reached fp closefp mode) (Routine.modify letGo : PyRoutine _ _)
      (fun _ h => Reached fp closefp mode h ∧ h.file = .closed)
      fun _ h => Reached fp closefp mode h ∧ h.file = .closed :=
    Triple.modify fun _ hr => hr.letGo
  intro h hr
  rcases closed_cases h with hopen | ⟨hclosed, hfile⟩
  · rw [close, Routine.bind_of_ok hopen]
    exact Triple.ensuring (within_reached finish_continues) (fun _ => hfinally)
      (fun _ => hfinally) h hr
  · rw [close, Routine.bind_of_ok hclosed]
    exact Triple.pure (fun _ hs => hs) h ⟨hr, hfile⟩

/-- What a call of `h` leaves is reached as well. -/
theorem FileCall.run_reached (call : FileCall) :
    Triple (FileHandle.Reached fp closefp mode) (call.run bufferSize)
      (fun _ => FileHandle.Reached fp closefp mode)
      fun _ => FileHandle.Reached fp closefp mode := by
  cases call with
  | read size =>
      apply (FileHandle.within_reached fun _ => HuffmanFile.read_continues _ _).bind
      exact fun _ => Triple.pure fun _ hr => hr
  | write data =>
      apply (FileHandle.within_reached fun _ => HuffmanFile.write_continues _).bind
      exact fun _ => Triple.pure fun _ hr => hr
  | close =>
      apply (FileHandle.close_reached.mono (fun _ hr => hr) (fun _ _ h => h.1)
        fun _ _ h => h.1).bind
      exact fun _ => Triple.pure fun _ hr => hr
  | readable =>
      apply (FileHandle.within_reached fun _ => Triple.of_same fun f => ?_).bind
      · exact fun _ => Triple.pure fun _ hr => hr
      · cases f <;> exact ⟨_, rfl⟩
  | writable =>
      apply (FileHandle.within_reached fun _ => Triple.of_same fun f => ?_).bind
      · exact fun _ => Triple.pure fun _ hr => hr
      · cases f <;> exact ⟨_, rfl⟩
  | fileno descriptor =>
      apply (FileHandle.within_reached fun _ => Triple.of_same fun f => ?_).bind
      · exact fun _ => Triple.pure fun _ hr => hr
      · cases f <;> cases descriptor <;> exact ⟨_, rfl⟩
  | seekable => exact Triple.of_same fun h => ⟨_, rfl⟩
  | closed =>
      apply (Triple.of_same FileHandle.closed_same).bind
      exact fun _ => Triple.pure fun _ hr => hr

theorem reached_of_runCalls {calls : List FileCall} {rs : List (Except PyException FileValue)}
    (hr : FileHandle.Reached fp closefp mode h)
    (hrun : runCalls (FileCall.run bufferSize) calls h = .ok (rs, h')) :
    FileHandle.Reached fp closefp mode h' := by
  induction calls generalizing h rs with
  | nil =>
      cases hrun
      exact hr
  | cons call calls ih =>
      rcases runCalls_cons_eq_ok hrun with ⟨r, h₁, rs', hcall, hrest, -⟩
      exact ih ((FileCall.run_reached call).of_ok hr hcall) hrest

/-- A file that is closed stays as it is. -/
theorem run_closed {κ μ : Type} [MemoryStreams κ μ] {h : FileHandle κ μ}
    (hclosed : h.file = .closed) (call : FileCall) :
    call.run bufferSize h = .ok (call.closedReply, h) := by
  rcases h with ⟨file, closefp, released⟩
  obtain rfl : file = .closed := hclosed
  cases call <;> rfl

/-- Closing is final in every run, also where `close` raises an exception: every later call
raises a `ValueError`, or returns what it returns of a closed file, and the file underneath is
left alone. It was closed if it was opened with this one, still has what it had, and has more
only where it was written. -/
theorem runCalls_close (fp : Fifo) (mode : OpenMode) (closefp : Bool) (blocksize memlimit : ℕ)
    (heap : Heap) {before after : List FileCall} {rs : List (Except PyException FileValue)}
    (hrun : runCalls (FileCall.run bufferSize) (before ++ .close :: after)
      (FileHandle.init Fifo fp mode closefp blocksize memlimit heap) = .ok (rs, h')) :
    ∃ rs₁ r fp', rs = rs₁ ++ r :: after.map FileCall.closedReply ∧
      rs₁.length = before.length ∧ h' = ⟨.closed, false, some (fp', closefp)⟩ ∧
      fp.stored <+: fp'.stored ∧ (mode = .read → fp'.stored = fp.stored) := by
  rcases runCalls_append_eq_ok hrun with ⟨rs₁, h₁, rs₂, hbefore, hrest, rfl⟩
  rcases runCalls_cons_eq_ok hrest with ⟨r, h₂, rs₃, hclose, hafter, rfl⟩
  have hr₁ := reached_of_runCalls
    (FileHandle.reached_init fp mode closefp blocksize memlimit heap) hbefore
  have hr₂ : FileHandle.Reached fp closefp mode h₂ ∧ h₂.file = .closed := by
    have hcall : Triple (FileHandle.Reached fp closefp mode) (FileCall.close.run bufferSize)
        (fun _ h => FileHandle.Reached fp closefp mode h ∧ h.file = .closed)
        fun _ h => FileHandle.Reached fp closefp mode h ∧ h.file = .closed :=
      FileHandle.close_reached.bind fun _ => Triple.pure fun _ h => h
    exact hcall.of_ok hr₁ hclose
  rw [runCalls_of_fixed (run_closed hr₂.2)] at hafter
  cases hafter
  refine ⟨rs₁, r, ?_⟩
  rcases hr₂ with ⟨hr₂, hclosed⟩
  cases hr₂ with
  | reading => cases hclosed
  | writing => cases hclosed
  | closed hstored hread => exact ⟨_, rfl, length_of_runCalls hbefore, rfl, hstored, hread⟩

end

/-! ## A `close` that raises an exception -/

/-- Where `flush` raises an exception, so does `close`, and the file is closed. -/
theorem FileHandle.close_of_flush_error {fp : Fifo} {c c' : HuffmanCompressor Fifo Fifo}
    {exception : PyException} (closefp : Bool)
    (hflush : HuffmanCompressor.flush c = .ok (.error exception, c')) :
    close ⟨.writing fp c, closefp, none⟩ =
      .ok (.error exception, ⟨.closed, false, some (fp, closefp)⟩) := by
  have hfinish : finish (.writing fp c) = .ok (.error exception, .writing fp c') := by
    rw [finish, Routine.get_bind_apply]
    exact Routine.bind_of_error (Routine.within_of_ok (s := c) rfl hflush)
  rw [close, Routine.bind_of_ok (a := false) rfl, if_neg Bool.false_ne_true]
  exact Routine.ensuring_of_ok (Routine.within_of_ok rfl hfinish) rfl

/-- Where the encoder fails, `flush` raises an exception. -/
theorem HuffmanCompressor.flush_of_hufEncode_error {c : HuffmanCompressor Fifo Fifo}
    (hopen : c.flushed = false) (hstored : 0 < c.istream.stored.length) {code : HufError}
    {world' : World Fifo Fifo}
    (hrun : hufEncode (some { c.config with length := c.istream.stored.length })
      ⟨c.istream, c.ostream, c.heap⟩ = .ok (.error code, world')) :
    ∃ c', flush c = .ok (.error (.huffmanError
      (hufErrorString code ++ ". " ++ "Failed to encode the data")), c') := by
  have hlength : Routine.within istreamPlace memStreamLen c =
      .ok (.ok c.istream.stored.length, c) := rfl
  let started := { c with config := { c.config with length := c.istream.stored.length } }
  have hencode : encode started = .ok (.error (.huffmanError
        (hufErrorString code ++ ". " ++ "Failed to encode the data")),
      world.store world' started) := by
    rw [encode, Routine.get_bind_apply]
    exact Routine.within_of_ok rfl (unwrapExc_of_error hrun)
  rw [flush, Routine.get_bind_apply, hopen, if_neg Bool.false_ne_true, Routine.bind_of_ok hlength,
    setLength, Routine.modify_bind_apply, if_pos hstored]
  exact ⟨_, Routine.bind_of_error hencode⟩

/-- A heap of which the eleventh allocation fails. -/
def failingHeap : Heap := ⟨fun _ => none, 0, List.replicate 10 true ++ [false]⟩

/-- The compressor of a file with that heap, after one byte. -/
def failingCompressor : HuffmanCompressor Fifo Fifo :=
  { HuffmanCompressor.init Fifo 4 failingHeap with istream := ⟨[97], 0⟩ }

/-- It cannot build its tree. -/
theorem flush_failing : ∃ c, HuffmanCompressor.flush failingCompressor =
    .ok (.error (.huffmanError
      (hufErrorString .memoryAllocation ++ ". " ++ "Failed to encode the data")), c) := by
  have hcode : (hufEncode (some { failingCompressor.config with length := 1 })
      ⟨⟨[97], 0⟩, Fifo.empty, failingHeap⟩).map Prod.fst = .ok (.error .memoryAllocation) := by
    decide +kernel
  rcases hrun : hufEncode (some { failingCompressor.config with length := 1 })
      ⟨⟨[97], 0⟩, Fifo.empty, failingHeap⟩ with fault | ⟨r, world⟩
  · rw [hrun] at hcode
    cases hcode
  · rw [hrun] at hcode
    cases hcode
    exact HuffmanCompressor.flush_of_hufEncode_error (c := failingCompressor) rfl Nat.one_pos hrun

/-- A file whose `close` raises an exception, because the eleventh allocation fails. -/
theorem runCalls_close_failing :
    let rs : List (Except PyException FileValue) := [.ok (.count 1),
      .error (.huffmanError
        (hufErrorString .memoryAllocation ++ ". " ++ "Failed to encode the data")),
      .ok (.flag true), .error (.valueError "I/O operation on closed file")]
    ∃ h', runCalls (FileCall.run 8192) ([.write [97]] ++ .close :: [.closed, .write [98]])
        (FileHandle.init Fifo Fifo.empty .write true 4 131072 failingHeap) = .ok (rs, h') ∧
      ∃ rs₁ r fp', rs = rs₁ ++ r :: [.closed, .write [98]].map FileCall.closedReply ∧
        rs₁.length = 1 ∧ h' = ⟨.closed, false, some (fp', true)⟩ ∧
        [] <+: fp'.stored ∧ (OpenMode.write = .read → fp'.stored = []) := by
  intro rs
  have hwrite : (FileCall.write [97]).run 8192
      (FileHandle.init Fifo Fifo.empty .write true 4 131072 failingHeap) =
        .ok (.ok (.count 1), ⟨.writing Fifo.empty failingCompressor, true, none⟩) := rfl
  let last : FileHandle Fifo Fifo := ⟨.closed, false, some (Fifo.empty, true)⟩
  rcases flush_failing with ⟨c, hflush⟩
  have hclose : FileCall.close.run 8192 ⟨.writing Fifo.empty failingCompressor, true, none⟩ =
      .ok (.error (.huffmanError
        (hufErrorString .memoryAllocation ++ ". " ++ "Failed to encode the data")), last) := by
    rw [FileCall.run]
    exact Routine.bind_of_error (FileHandle.close_of_flush_error true hflush)
  have hafter : runCalls (FileCall.run 8192) [.closed, .write [98]] last =
      .ok ([.closed, .write [98]].map FileCall.closedReply, last) :=
    runCalls_of_fixed (run_closed rfl) _
  have hrun : runCalls (FileCall.run 8192) ([.write [97]] ++ .close :: [.closed, .write [98]])
      (FileHandle.init Fifo Fifo.empty .write true 4 131072 failingHeap) = .ok (rs, last) := by
    rw [List.singleton_append, runCalls_cons hwrite, runCalls_cons hclose, hafter]
    rfl
  exact ⟨_, hrun, runCalls_close Fifo.empty .write true 4 131072 failingHeap hrun⟩

end LibHuffman
