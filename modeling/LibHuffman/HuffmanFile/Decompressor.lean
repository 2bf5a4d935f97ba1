/-
# Incremental decompression

`decompress` declares everything that was ever written to its input stream, because
nothing rewinds that stream, while the decoder counts what it reads from zero in
every call. The first bytes of an object are decoded; after them the decoder asks
for as many more bytes again, and every call fails.
-/

import LibHuffman.HuffmanFile.Classes
import LibHuffman.Codec.RoundTrip

namespace LibHuffman

open Foundation

/-- Moving past bytes that are stored stays within what is stored. -/
theorem Fifo.advance_within {stored : List UInt8} {s : Fifo} (count : ℕ)
    (hstored : s.stored = stored) (hoff : s.off ≤ stored.length) :
    (s.advance count).off ≤ stored.length := by
  rw [Fifo.advance, Fifo.unread, List.length_drop, hstored]
  have hmin := Nat.min_le_right count (stored.length - s.off)
  dsimp only
  omega

/-- The ideal stream while it stores certain bytes: reading moves its offset only. -/
def Fifo.holding (stored : List UInt8) : Source Fifo where
  readWriter := readWriter
  valid s := s.stored = stored ∧ s.off ≤ stored.length
  remaining := unread
  read_delivers count s h :=
    ⟨s.advance count, rfl, ⟨h.1, advance_within count h.1 h.2⟩, s.unread_advance count⟩

namespace HuffmanDecompressor

/-! ## One call -/

/-- A decompressor between two calls that has read all of the bytes `past`. -/
structure Ready (d : HuffmanDecompressor Fifo Fifo) (past : List UInt8) : Prop where
  istream : d.istream = ⟨past, past.length⟩
  ostream : d.ostream = Fifo.empty
  config : d.config =
    ⟨d.config.length, 0, 0, 0, some Fifo.readWriter, some Fifo.readWriter⟩
  allocations : d.heap.allocations = []

theorem ready_init (memlimit : ℕ) (heap : Heap) (halloc : heap.allocations = []) :
    Ready (init Fifo memlimit heap) [] :=
  ⟨rfl, rfl, rfl, halloc⟩

section

variable {d : HuffmanDecompressor Fifo Fifo} {past : List UInt8}

/-- How a call may end, where reading the data as blocks ends in the given way. -/
def DecompressPost (past data : List UInt8)
    (outcome : Outcome Fault PyException (HuffmanDecompressor Fifo Fifo) (List UInt8)) :
    ReadEnd → Prop
  | .complete symbols rest => ∃ d', outcome = .ok (.ok symbols, d') ∧
      (rest = [] → Ready d' (past ++ data))
  | .failed code => ∃ d', outcome =
      .ok (.error (.huffmanError (hufErrorString code ++ ". " ++ "Failed to decode the data")), d')
  | .crashed => outcome = .error .nullPointer

/-- A call reads the data, but with the length of all bytes so far. -/
theorem decompress_post (h : Ready d past) (data : List UInt8) :
    DecompressPost past data (decompress data d) (readBlocks (past.length + data.length) data) := by
  have hlength : (past ++ data).length = past.length + data.length := List.length_append
  have hreader : d.config.reader = some (Fifo.holding (past ++ data)).readWriter := by
    rw [h.config]
    rfl
  have hwriter : d.config.writer = some Fifo.sink.readWriter := by rw [h.config]; rfl
  have hunread : (⟨past ++ data, past.length⟩ : Fifo).unread = data := List.drop_left
  have hwrite : Routine.within istreamPlace (memStreamWrite data) d =
      .ok (.ok (), { d with istream := ⟨past ++ data, past.length⟩ }) := by
    apply Routine.within_of_ok (s := d.istream) rfl
    rw [h.istream]
    rfl
  have houtput : Fifo.sink.content d.ostream = [] := by rw [h.ostream]; rfl
  let started : HuffmanDecompressor Fifo Fifo := { d with
    istream := ⟨past ++ data, past.length⟩
    config := { d.config with length := (past ++ data).length } }
  have hends := hufDecode_ends (Fifo.holding (past ++ data)) Fifo.sink started.config
    ⟨started.istream, started.ostream, started.heap⟩ hreader hwriter h.allocations
    ⟨rfl, by rw [hlength]; exact Nat.le_add_right _ _⟩
  have hcall : decompress data d =
      (Routine.within world (unwrapExc (hufDecode (some started.config))
          "Failed to decode the data") >>= fun _ =>
        Routine.within ostreamPlace memStreamGetvalue >>= fun decoding =>
          Routine.within ostreamPlace (memStreamSeek 0 0) >>= fun _ =>
            (pure decoding : PyRoutine (HuffmanDecompressor Fifo Fifo) (List UInt8))) started := by
    rw [decompress, Routine.bind_of_ok hwrite]
    rfl
  have hremaining : (Fifo.holding (past ++ data)).remaining started.istream = data := hunread
  rw [hremaining, show started.config.length = past.length + data.length from hlength] at hends
  rw [hcall]
  cases hread : readBlocks (past.length + data.length) data with
  | complete symbols rest =>
      rw [hread] at hends
      rcases hends with ⟨world', hrun, hcontent, hvalid, hsuffix, halloc⟩
      have hstored : world'.output.stored = symbols := by
        rw [show world'.output.stored = Fifo.sink.content d.ostream ++ symbols from hcontent,
          houtput, List.nil_append]
      have hdecode : Routine.within world (unwrapExc (hufDecode (some started.config))
          "Failed to decode the data") started = .ok (.ok (), { started with
            istream := world'.input
            ostream := world'.output
            heap := world'.heap }) :=
        Routine.within_of_ok (s := ⟨started.istream, started.ostream, started.heap⟩) rfl
          (unwrapExc_of_ok hrun)
      refine ⟨{ started with
          istream := world'.input
          ostream := Fifo.empty
          heap := world'.heap }, ?_, fun hrest => ⟨?_, rfl, ?_, halloc⟩⟩
      · rw [Routine.bind_of_ok hdecode, ← hstored]
        rfl
      · -- nothing is left to be read
        have hempty : world'.input.unread = [] := by
          rw [hrest] at hsuffix
          exact List.suffix_nil.mp hsuffix
        have hoff : (past ++ data).length ≤ world'.input.off := by
          rw [Fifo.unread, hvalid.1, List.drop_eq_nil_iff] at hempty
          exact hempty
        show world'.input = ⟨past ++ data, (past ++ data).length⟩
        rw [← Nat.le_antisymm hvalid.2 hoff, ← hvalid.1]
      · show started.config = _
        rw [show started.config = { d.config with length := (past ++ data).length } from rfl,
          h.config]
  | failed code =>
      rw [hread] at hends
      rcases hends with ⟨world', hrun⟩
      refine ⟨{ started with
          istream := world'.input
          ostream := world'.output
          heap := world'.heap }, Routine.bind_of_error ?_⟩
      exact Routine.within_of_ok (s := ⟨started.istream, started.ostream, started.heap⟩) rfl
        (unwrapExc_of_error hrun)
  | crashed =>
      rw [hread, DecodeResult] at hends
      exact Routine.bind_of_fault (Routine.within_of_fault
        (s := ⟨started.istream, started.ostream, started.heap⟩) rfl (unwrapExc_of_fault hends))

/-- The first bytes that an object is given are decoded. -/
theorem decompress_first (h : Ready d []) {data symbols : List UInt8}
    (hblocks : Blocks data symbols) :
    ∃ d', decompress data d = .ok (.ok symbols, d') ∧ Ready d' data := by
  have hpost := decompress_post h data
  rw [List.length_nil, Nat.zero_add, readBlocks_of_blocks hblocks] at hpost
  rcases hpost with ⟨d', hrun, hready⟩
  exact ⟨d', hrun, hready rfl⟩

/-- After them every call fails: the decoder is behind all blocks, and the declared
length is not used up. -/
theorem decompress_again (h : Ready d past) (hpast : past ≠ []) {data symbols : List UInt8}
    (hblocks : Blocks data symbols) : ∃ d', decompress data d =
      .ok (.error (.huffmanError "Failed on read/write operation. Failed to decode the data"),
        d') := by
  have hpos := List.length_pos_iff.mpr hpast
  have hread : readBlocks (past.length + data.length) data = .failed .readWrite := by
    have hshort : readBlock [] = .failed .readWrite := readBlock_short (by decide)
    have happend := readBlocks_append hblocks (Nat.le_add_left data.length past.length) []
    rw [List.append_nil, Nat.add_sub_cancel, readBlocks_of_failed (by omega) hshort] at happend
    exact happend
  have hpost := decompress_post h data
  rw [hread] at hpost
  rcases hpost with ⟨d', hrun⟩
  exact ⟨d', hrun⟩

end

/-! ## Runs -/

/-- Decompress the strings one after the other. -/
def decompressAll :
    List (List UInt8) → PyRoutine (HuffmanDecompressor Fifo Fifo) (List (List UInt8))
  | [] => pure []
  | data :: strings => do
    let decoding ← decompress data
    return decoding :: (← decompressAll strings)

/-- Strings of blocks are decoded call by call only if all but the last are empty. -/
theorem decompressAll_iff {d : HuffmanDecompressor Fifo Fifo} {past : List UInt8} (h : Ready d past)
    {strings decodings : List (List UInt8)} (hblocks : List.Forall₂ Blocks strings decodings) :
    (∃ d', decompressAll strings d = .ok (.ok decodings, d')) ↔
      strings = [] ∨ past = [] ∧ ∀ string ∈ strings.dropLast, string = [] := by
  induction hblocks generalizing d past with
  | nil => exact iff_of_true ⟨d, rfl⟩ (Or.inl rfl)
  | @cons data symbols strings decodings hdata hblocks ih =>
      by_cases hpast : past = []
      · subst hpast
        obtain ⟨d₁, hrun, hready⟩ := decompress_first h hdata
        have hrest :
            (∃ d', decompressAll (data :: strings) d = .ok (.ok (symbols :: decodings), d')) ↔
            ∃ d', decompressAll strings d₁ = .ok (.ok decodings, d') := by
          rw [decompressAll, Routine.bind_of_ok hrun]
          apply Iff.intro
          · intro h'
            rcases h' with ⟨d', hall⟩
            obtain ⟨found, s', hstrings, hfound⟩ := Routine.bind_eq_ok hall
            cases hfound
            exact ⟨d', hstrings⟩
          · intro h'
            rcases h' with ⟨d', hstrings⟩
            exact ⟨d', Routine.bind_of_ok hstrings⟩
        rw [hrest, ih hready]
        cases strings with
        | nil => simp
        | cons next later => simp
      · obtain ⟨d₁, hrun⟩ := decompress_again h hpast hdata
        apply iff_of_false
        · intro h'
          rcases h' with ⟨d', hall⟩
          rw [decompressAll] at hall
          obtain ⟨_, _, hfirst, -⟩ := Routine.bind_eq_ok hall
          rw [hrun] at hfirst
          cases hfirst
        · rintro (hnil | ⟨hnil, -⟩)
          · cases hnil
          · exact hpast hnil

/-- Decompressing strings one after the other gives what each of them encodes, and
together what one call gives for all of them. -/
structure Incremental (memlimit : ℕ) (heap : Heap) (strings decodings : List (List UInt8)) :
    Prop where
  each : ∃ d, decompressAll strings (init Fifo memlimit heap) = .ok (.ok decodings, d)
  whole : ∃ d,
    decompress strings.flatten (init Fifo memlimit heap) = .ok (.ok decodings.flatten, d)

theorem blocks_flatten {strings decodings : List (List UInt8)}
    (h : List.Forall₂ Blocks strings decodings) : Blocks strings.flatten decodings.flatten := by
  induction h with
  | nil => exact .nil
  | cons hdata _ ih =>
      rw [List.flatten_cons, List.flatten_cons]
      exact hdata.append ih

/-- A decompressor is incremental on strings of which only the last is not empty. -/
theorem incremental_iff_dropLast_empty (memlimit : ℕ) {heap : Heap}
    (halloc : heap.allocations = []) {strings decodings : List (List UInt8)}
    (hblocks : List.Forall₂ Blocks strings decodings) :
    Incremental memlimit heap strings decodings ↔ ∀ string ∈ strings.dropLast, string = [] := by
  have heach := decompressAll_iff (ready_init memlimit heap halloc) hblocks
  apply Iff.intro
  · intro h
    rcases h with ⟨hrun, -⟩
    rcases heach.mp hrun with rfl | ⟨-, hempty⟩
    · intro string hstring
      cases hstring
    · exact hempty
  · intro hempty
    obtain ⟨d, hrun, -⟩ := decompress_first (ready_init memlimit heap halloc)
      (blocks_flatten hblocks)
    exact ⟨heach.mpr (Or.inr ⟨rfl, hempty⟩), d, hrun⟩

/-- The block of one byte that the encoder writes for `[49]`. -/
def symbolBlock : List UInt8 :=
  [1, 0, 0, 0, 0, 0, 0, 0, 5, 0, 0, 1, 49, 0, 255, 255, 255, 255, 255, 255, 0]

theorem blocks_symbolBlock : Blocks symbolBlock [49] := blocks_of_readBlock (by decide)

/-- An empty string, and then a block. -/
theorem incremental_symbolBlock : Incremental 131072 emptyHeap [[], symbolBlock] [[], [49]] := by
  apply (incremental_iff_dropLast_empty 131072 rfl (.cons .nil (.cons blocks_symbolBlock .nil))).mpr
  simp

/-- A block, and then another one: the second call raises an exception. -/
theorem not_incremental_symbolBlocks :
    List.Forall₂ Blocks [symbolBlock, symbolBlock] [[49], [49]] ∧
      (∃ d, decompressAll [symbolBlock, symbolBlock] (init Fifo 131072 emptyHeap) = .ok (.error
        (.huffmanError "Failed on read/write operation. Failed to decode the data"), d)) ∧
      ¬ Incremental 131072 emptyHeap [symbolBlock, symbolBlock] [[49], [49]] := by
  obtain ⟨d₁, hfirst, hready⟩ := decompress_first (ready_init 131072 emptyHeap rfl)
    blocks_symbolBlock
  obtain ⟨d₂, hsecond⟩ := decompress_again hready (by decide) blocks_symbolBlock
  have hrun : decompressAll [symbolBlock, symbolBlock] (init Fifo 131072 emptyHeap) = .ok (.error
      (.huffmanError "Failed on read/write operation. Failed to decode the data"), d₂) := by
    rw [decompressAll, Routine.bind_of_ok hfirst]
    exact Routine.bind_of_error (Routine.bind_of_error hsecond)
  refine ⟨.cons blocks_symbolBlock (.cons blocks_symbolBlock .nil), ⟨d₂, hrun⟩, ?_⟩
  intro h
  rcases h with ⟨⟨d', hall⟩, -⟩
  rw [hrun] at hall
  cases hall

end HuffmanDecompressor

end LibHuffman
