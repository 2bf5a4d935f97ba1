/-
# In-memory streams and file descriptors

Both kinds of stream that `io.c` offers keep the promise of a partial sink. An in-memory
stream that has room for the longest write grows by enough for every write, and refuses
one only where its allocation fails. A descriptor takes as much of a write as the system
lets it.
-/

import LibHuffman.Refinement.Decoding
import LibHuffman.Refinement.Encoding
import LibHuffman.Model.Descriptor
import LibHuffman.Streams.Memory

namespace LibHuffman

open Foundation Allocating

/-! ## In-memory streams -/

/-- The bytes that were written to an in-memory stream. -/
def MemStream.stored (s : MemStream) : List UInt8 := s.mem.buf.take s.mem.len

/-- The block of an in-memory stream is as long as it says, and what is read lies in it. -/
structure MemStream.Sound (s : MemStream) : Prop where
  block : s.mem.buf.length = s.mem.cap
  len_le : s.mem.len ≤ s.mem.cap
  off_le : s.mem.off ≤ s.mem.len

/-- A stream with room for a write of `limit` bytes, from which nothing has been read, and
whose allocations all succeed unless they may fail. -/
structure MemStream.Ready (limit : ℕ) (mayFail : Bool) (s : MemStream) : Prop
    extends MemStream.Sound s where
  limit_le : limit ≤ s.mem.cap
  off : s.mem.off = 0
  allocations : mayFail = true ∨ false ∉ s.allocations

section

variable {s : MemStream} {limit : ℕ} {mayFail : Bool}

theorem MemStream.Sound.length_stored (h : s.Sound) : s.stored.length = s.mem.len := by
  have hblock := h.block
  have hlen := h.len_le
  rw [MemStream.stored, List.length_take]
  omega

/-- The stream after `buf` was copied behind what is stored in a block `front`. -/
theorem MemStream.Ready.after (h : s.Ready limit mayFail) {buf block : List UInt8} {cap : ℕ}
    {allocations : List Bool} (hcap : s.mem.cap ≤ cap) (hlength : block.length = cap)
    (hroom : s.mem.len + buf.length ≤ cap)
    (hblock : ∃ rest, block = s.stored ++ buf ++ rest)
    (hallocations : mayFail = true ∨ false ∉ allocations) :
    MemStream.Ready limit mayFail ⟨⟨block, s.mem.off, s.mem.len + buf.length, cap⟩, allocations⟩ ∧
      MemStream.stored ⟨⟨block, s.mem.off, s.mem.len + buf.length, cap⟩, allocations⟩ =
        s.stored ++ buf := by
  apply And.intro
  · constructor
    case toSound =>
      constructor
      case block => exact hlength
      case len_le => exact hroom
      case off_le =>
        have := h.off_le
        show s.mem.off ≤ s.mem.len + buf.length
        omega
    case limit_le => exact Nat.le_trans h.limit_le hcap
    case off => exact h.off
    case allocations => exact hallocations
  · rcases hblock with ⟨rest, rfl⟩
    show (s.stored ++ buf ++ rest).take (s.mem.len + buf.length) = s.stored ++ buf
    apply List.take_left'
    rw [List.length_append, h.length_stored]

/-- The block that a stream is moved to, with `buf` copied behind what is stored. -/
theorem MemStream.Sound.moved (h : s.Sound) {buf : List UInt8}
    (hroom : s.mem.len + buf.length ≤ s.mem.cap * 2) :
    ∃ front block rest, slice s.mem.buf 0 s.mem.len = .ok s.stored ∧
      memcpy (List.replicate (s.mem.cap * 2) (0 : UInt8)) 0 s.stored = .ok front ∧
      memcpy front s.mem.len buf = .ok block ∧ block = s.stored ++ buf ++ rest ∧
      block.length = s.mem.cap * 2 := by
  have hblock := h.block
  have hlen := h.len_le
  have hstored := h.length_stored
  have hfits : 0 + s.stored.length ≤ (List.replicate (s.mem.cap * 2) (0 : UInt8)).length := by
    rw [List.length_replicate]
    omega
  have hfront := memcpy_of_le hfits
  have hcopied := length_memcpy hfront
  rw [List.take_zero, List.nil_append] at hfront hcopied
  rw [List.length_replicate] at hcopied
  have hwhole := memcpy_of_le (hroom.trans_eq hcopied.symm)
  have hlength := (length_memcpy hwhole).trans hcopied
  rw [List.take_left' hstored] at hwhole hlength
  exact ⟨_, _, _, slice_of_le (by omega), hfront, hwhole, rfl, hlength⟩

/-- A write within the limit appends, or is refused for want of memory. -/
theorem memwrite_part (h : s.Ready limit mayFail) {buf : List UInt8} (hbuf : buf.length ≤ limit) :
    (∃ s', memwrite buf s = .ok (.ok (), s') ∧ s'.Ready limit mayFail ∧
        s'.stored = s.stored ++ buf) ∨
      mayFail = true ∧ ∃ s', memwrite buf s = .ok (.error .memoryAllocation, s') ∧
        s'.stored = s.stored := by
  have hblock := h.block
  have hlen := h.len_le
  have hlimit := h.limit_le
  rw [memwrite, Routine.get_bind_apply]
  by_cases hfit : s.mem.cap ≥ s.mem.len + buf.length
  · have hcopy := memcpy_of_le (hfit.trans_eq hblock.symm)
    rw [if_pos hfit, hcopy, Routine.demand_ok_bind_apply]
    have hafter := h.after (Nat.le_refl _) ((length_memcpy hcopy).trans hblock) hfit ⟨_, rfl⟩
      h.allocations
    exact .inl ⟨_, rfl, hafter.1, hafter.2⟩
  have hgrown : grownCapacity s.mem.cap buf.length = s.mem.cap * 2 := if_neg (by omega)
  rw [if_neg hfit, hgrown]
  have hroom : s.mem.len + buf.length ≤ s.mem.cap * 2 := by omega
  rcases h.moved hroom with ⟨front, block, rest, hslice, hfront, hcopy, hcontent, hlength⟩
  have hgrows : ∀ later, hufMalloc s.allocations = .ok (.ok (), later) →
      (mayFail = true ∨ false ∉ later) → ∃ s', (do
        Routine.within MemStream.allocator hufMalloc
        let written ← Routine.demand (slice s.mem.buf 0 s.mem.len)
        let newbuf ← Routine.demand (memcpy (List.replicate (s.mem.cap * 2) 0) 0 written)
        let newbuf ← Routine.demand (memcpy newbuf s.mem.len buf)
        Routine.modify fun s' : MemStream => { s' with mem := { s.mem with
          buf := newbuf, len := s.mem.len + buf.length, cap := s.mem.cap * 2 } } :
          CRoutine MemStream Unit) s = .ok (.ok (), s') ∧ s'.Ready limit mayFail ∧
        s'.stored = s.stored ++ buf := by
    intro later hmalloc hlater
    rw [Routine.bind_of_ok (Routine.within_of_ok rfl hmalloc), hslice,
      Routine.demand_ok_bind_apply, hfront, Routine.demand_ok_bind_apply, hcopy,
      Routine.demand_ok_bind_apply]
    have hafter := h.after (by omega) hlength (by omega) ⟨rest, hcontent⟩ hlater
    exact ⟨_, rfl, hafter.1, hafter.2⟩
  have hallocations := h.allocations
  rcases houtcomes : s.allocations with _ | ⟨outcome, later⟩
  · exact .inl (hgrows [] (by rw [houtcomes]; rfl) (.inr List.not_mem_nil))
  · rw [houtcomes] at hallocations
    cases outcome with
    | true =>
        apply Or.inl
        apply hgrows later (by rw [houtcomes]; rfl)
        exact hallocations.imp_right fun hmem hlater => hmem (List.mem_cons_of_mem _ hlater)
    | false =>
        have hmalloc : hufMalloc s.allocations = .ok (.error .memoryAllocation, later) := by
          rw [houtcomes]
          rfl
        refine .inr ⟨?_, _, Routine.bind_of_error (Routine.within_of_ok rfl hmalloc), rfl⟩
        rcases hallocations with hfail | hmem
        · exact hfail
        · exact absurd List.mem_cons_self hmem

/-- An in-memory stream to write to. -/
def memSink (limit : ℕ) (mayFail : Bool) : PartialSink MemStream where
  readWriter := memReadWriter
  content := MemStream.stored
  valid := MemStream.Ready limit mayFail
  limit := limit
  write_part data s hs hdata := by
    rcases memwrite_part hs hdata with ⟨s', hrun, hready, hstored⟩ | ⟨-, s', hrun, hstored⟩
    · exact .inl ⟨s', hrun, hready, hstored⟩
    · refine .inr ⟨_, s', hrun, ?_⟩
      rw [hstored]
      exact ⟨List.prefix_refl _, List.prefix_append _ _⟩

/-- A stream with enough memory refuses nothing. -/
theorem memSink_refuses {code : HufError} (h : (memSink limit mayFail).Refuses code) :
    mayFail = true := by
  rcases h with ⟨data, s, s', hs, hdata, hrun⟩
  rcases memwrite_part hs hdata with ⟨s'', hrun', -⟩ | ⟨hfail, -⟩
  · cases hrun.symm.trans hrun'
  · exact hfail

/-- A read delivers the next bytes, as many as are asked for or left. -/
theorem memread_sound (h : s.Sound) (count : ℕ) :
    let left := s.stored.drop s.mem.off
    ∃ s', memread count s = .ok (⟨none, left.take count, min count left.length⟩, s') ∧
      s'.Sound ∧ s'.stored.drop s'.mem.off = left.drop count := by
  intro left
  have hblock := h.block
  have hlen := h.len_le
  have hoff := h.off_le
  have hstored := h.length_stored
  have hleft : left.length = s.mem.len - s.mem.off := by
    show (s.stored.drop s.mem.off).length = _
    rw [List.length_drop, hstored]
  have hcopy : (if count > sizeSub s.mem.len s.mem.off then sizeSub s.mem.len s.mem.off
      else count) = min count left.length := by
    rw [sizeSub_of_le hoff, hleft]
    split <;> omega
  rw [memread]
  simp only [hcopy]
  by_cases hsome : min count left.length > 0
  · have hdata : (s.mem.buf.drop s.mem.off).take (min count left.length) = left.take count := by
      have hdrop : left = (s.mem.buf.drop s.mem.off).take left.length := by
        rw [hleft, ← List.drop_take]
        rfl
      rw [hdrop, List.take_take, ← hdrop]
    rw [if_pos hsome, slice_of_le (by omega), hdata]
    refine ⟨_, rfl, ?_, ?_⟩
    · constructor
      case block => exact hblock
      case len_le => exact hlen
      case off_le =>
        show s.mem.off + min count left.length ≤ s.mem.len
        omega
    · show s.stored.drop (s.mem.off + min count left.length) = left.drop count
      rw [← List.drop_drop]
      show left.drop (min count left.length) = left.drop count
      rcases Nat.le_total count left.length with hle | hle
      · rw [Nat.min_eq_left hle]
      · rw [Nat.min_eq_right hle, List.drop_length, List.drop_eq_nil_of_le hle]
  · have hnone : left.take count = [] := by
      apply List.eq_nil_of_length_eq_zero
      rw [List.length_take]
      omega
    rw [if_neg hsome, hnone]
    have hkept := List.take_append_drop count left
    rw [hnone, List.nil_append] at hkept
    exact ⟨s, rfl, h, hkept.symm⟩

/-- An in-memory stream to read from. -/
def memSource : Source MemStream where
  readWriter := memReadWriter
  valid := MemStream.Sound
  remaining s := s.stored.drop s.mem.off
  read_delivers count _ hs := memread_sound hs count

end

/-- The round trip through memory. The input is what one stream still holds, the encoded
bytes are read from the very stream that they were written to, and no stream is assumed to
be unbounded: it is enough that those written to have room for the longest write. -/
theorem hufDecode_hufEncode_memory (econfig : HufConfig MemStream MemStream)
    (eworld : World MemStream MemStream) (hreader : econfig.reader = some memReadWriter)
    (hwriter : econfig.writer = some memReadWriter) (hinput : eworld.input.Sound)
    (houtput : eworld.output.Ready (max (2 * hufBtreeLen) econfig.writerBufferSize) false)
    (hempty : eworld.output.stored = []) (halloc : false ∉ eworld.heap.allocations)
    (hlength : econfig.length = (eworld.input.stored.drop eworld.input.mem.off).length)
    (hlen : econfig.length < 2 ^ 63)
    (hsmall : SmallTrees econfig.blocksize (eworld.input.stored.drop eworld.input.mem.off)) :
    ∃ eworld', hufEncode (some econfig) eworld = .ok (.ok (), eworld') ∧
      ∀ (dconfig : HufConfig MemStream MemStream) (dworld : World MemStream MemStream),
        dconfig.reader = some memReadWriter → dconfig.writer = some memReadWriter →
        dworld.input = eworld'.output → dconfig.length = dworld.input.mem.len →
        dworld.output.Ready (max 1 dconfig.writerBufferSize) false →
        false ∉ dworld.heap.allocations →
        ∃ dworld', hufDecode (some dconfig) dworld = .ok (.ok (), dworld') ∧
          dworld'.output.stored =
            dworld.output.stored ++ eworld.input.stored.drop eworld.input.mem.off := by
  generalize hdata : eworld.input.stored.drop eworld.input.mem.off = data at *
  have hleft : memSource.remaining eworld.input = data := hdata
  have hnever {limit : ℕ} {first : List Bool} (hfirst : false ∉ first) (code : HufError) :
      ¬ Interrupted (memSink limit false) first code := by
    rintro (⟨-, hmem⟩ | hrefuses)
    · exact hfirst hmem
    · exact Bool.false_ne_true (memSink_refuses hrefuses)
  have hgranted {first : List Bool} (hfirst : false ∉ first) (k : ℕ) : Granted first k :=
    fun hmem => hfirst (List.mem_of_mem_take hmem)
  rcases hufEncode_partial memSource
      (memSink (max (2 * hufBtreeLen) econfig.writerBufferSize) false) econfig eworld hreader
      hwriter ⟨_, rfl, by rw [hreader]; nofun, by rw [hwriter]; nofun, hgranted halloc _⟩ hinput
      houtput (by rw [hleft]; exact hlength) hlen (by rw [hleft]; exact hsmall)
      (Nat.le_max_left _ _) (Nat.le_max_right _ _) with
    ⟨r, eworld', written, hrun, hcontent, -, hok, herror⟩
  cases r with
  | error code => exact absurd (herror code rfl) (hnever halloc code)
  | ok _ =>
      rcases hok rfl with ⟨hwritten, hready⟩
      have hstored : eworld'.output.stored = encoded econfig.blocksize data := by
        rw [show eworld'.output.stored = eworld.output.stored ++ written from hcontent, hempty,
          hwritten, hleft]
        rfl
      refine ⟨eworld', hrun, ?_⟩
      intro dconfig dworld hdreader hdwriter hdinput hdlength hdoutput hdalloc
      have hremaining : memSource.remaining dworld.input = encoded econfig.blocksize data := by
        show dworld.input.stored.drop dworld.input.mem.off = _
        rw [hdinput, hready.off, List.drop_zero, hstored]
      have hbytes : dconfig.length = (encoded econfig.blocksize data).length := by
        rw [hdlength, hdinput, ← hstored, hready.length_stored]
      have hresult := hufDecode_partial memSource
        (memSink (max 1 dconfig.writerBufferSize) false) dconfig dworld hdreader hdwriter
        ⟨_, rfl, by rw [hdreader]; nofun, by rw [hdwriter]; nofun, hgranted hdalloc _⟩
        (hdinput ▸ hready.toSound) hdoutput (Nat.le_max_left _ _) (Nat.le_max_right _ _)
      have hlt : data.length < 2 ^ 63 := hlength ▸ hlen
      rw [hremaining, hbytes, readBlocks_of_blocks (blocks_encoded (by omega)
        (hsmall.fits hlt))] at hresult
      rcases hresult with ⟨r, dworld', decoded, hdecode, hdecoded, -, hok, herror⟩
      cases r with
      | error code => exact absurd (herror code rfl) (hnever hdalloc code)
      | ok _ =>
          have hsame : dworld'.output.stored = dworld.output.stored ++ decoded := hdecoded
          exact ⟨dworld', hdecode, hsame.trans (congrArg _ (hok rfl).1)⟩

theorem newMemStream_ready {limit capacity : ℕ} (h : limit ≤ capacity) :
    (newMemStream capacity).Ready limit false where
  block := List.length_replicate
  len_le := Nat.zero_le _
  off_le := Nat.le_refl 0
  limit_le := h
  off := rfl
  allocations := .inr List.not_mem_nil

/-- Ten bytes, in blocks of four, from a stream that still holds eight of them. -/
theorem hufDecode_hufEncode_memory_eight :
    let input : MemStream := ⟨⟨[1, 2, 3, 3, 3, 3, 2, 4, 2, 5, 0], 2, 10, 11⟩, []⟩
    let econfig : HufConfig MemStream MemStream :=
      ⟨8, 4, 3, 4096, some memReadWriter, some memReadWriter⟩
    ∃ eworld', hufEncode (some econfig) ⟨input, newMemStream 4096, emptyHeap⟩ =
        .ok (.ok (), eworld') ∧
      ∃ dworld', hufDecode (some { econfig with length := eworld'.output.mem.len })
          ⟨eworld'.output, newMemStream 4096, emptyHeap⟩ = .ok (.ok (), dworld') ∧
        dworld'.output.stored = [3, 3, 3, 3, 2, 4, 2, 5] := by
  intro input econfig
  have hsound : input.Sound := ⟨rfl, by decide, by decide⟩
  rcases hufDecode_hufEncode_memory econfig ⟨input, newMemStream 4096, emptyHeap⟩ rfl rfl hsound
      (newMemStream_ready (by decide)) rfl List.not_mem_nil rfl (by decide)
      (smallTrees_of_short (by decide)) with ⟨eworld', hencode, hdecodes⟩
  rcases hdecodes { econfig with length := eworld'.output.mem.len }
      ⟨eworld'.output, newMemStream 4096, emptyHeap⟩ rfl rfl rfl rfl
      (newMemStream_ready (show max 1 4096 ≤ 4096 by decide)) List.not_mem_nil with
    ⟨dworld', hdecode, hstored⟩
  exact ⟨eworld', hencode, dworld', hdecode, hstored⟩

/-! ## File descriptors -/

end LibHuffman
