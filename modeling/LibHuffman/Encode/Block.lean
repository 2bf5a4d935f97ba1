/-
# Encoding a block

An iteration of the loop of `huf_encode` reads a block, writes `encodedBlock` of it
and, unless it was the last one, puts the tree, the histogram and the mapping back
into the state they were created in. It fails where the tree cannot be built or
has too many words for the array it is serialized into.
-/

import LibHuffman.Encode.Payload
import LibHuffman.Format.Grammar

namespace LibHuffman

open Foundation

variable {ρ ω : Type}

/-- The words of the tree of a block. -/
def blockWords (block : List UInt8) : List Int16 :=
  preorder hufLeafNode ((hufTree (byteRates block)).map Int16.ofNat)

/-- What the encoder writes for a block. -/
def encodedBlock (block : List UInt8) : List UInt8 :=
  blockHeader block.length (blockWords block) ++ pack (payloadBits (byteRates block) block)

/-- The tree of a block can be built, and it has at most `HUF_BTREE_LEN` words. -/
def Fits (block : List UInt8) : Prop :=
  ¬ (Forest.seed (byteRates block)).Overflows ∧ (blockWords block).length ≤ hufBtreeLen

/-- The state of the encoder between two blocks, with `rest` to be read and `written`
accepted by the buffered writer. After the last block the tree, the mapping and the
histogram are those of that block. -/
structure Running (src : Source ρ) (sink : Sink ω) (config : HufConfig ρ ω)
    (rest written : List UInt8) (e : EncodeState ρ ω) : Prop where
  config : e.config = config
  reading : Reading src e.reader rest
  writing : Writing sink.toFallibleSink e.writer written
  allocations : e.tree.heap.allocations = []
  holds : ∃ tree, e.tree.heap.Holds e.tree.tree.root tree
  mapping : e.mapping.symbols.length = e.mapping.length
  reset : rest ≠ [] → e.tree.tree = ⟨noLeaves, none⟩ ∧ e.mapping = emptyMapping ∧
    e.histogram = emptyHistogram

/-- The local variables between two blocks. -/
structure RunningLocals (blocksize : ℕ) (rest : List UInt8) (l : EncodeLocals) : Prop where
  buf : l.buf.length = blocksize
  treeHead : l.treeHead.length = hufBtreeLen
  leftToRead : l.leftToRead = rest.length

section

variable {src : Source ρ} {sink : Sink ω} {config : HufConfig ρ ω} {rest written : List UInt8}
  {e : EncodeState ρ ω} {l : EncodeLocals}

/-- The bytes of the block are mapped once the whole table is filled. -/
theorem maps_of_coded {block : List UInt8} {m : HufSymbolMapping}
    (h : CodedBelow (byteRates block) hufAsciiCount m) : Maps (byteRates block) block m :=
  ⟨h.length, fun byte hbyte => by
    rw [h.coded byte.toNat byte.toNat_lt, if_pos (mem_counted_byteRates.mpr hbyte)]⟩

/-- Serialization of the tree of a block into an array of words. -/
theorem hufTreeSerialize_built {rates : List ℕ} {t : HistogramTree} (hbuilt : Built rates t)
    (buf : List Int16) :
    hufTreeSerialize ⟨t.tree, t.heap⟩ buf =
      (memcpy buf 0 (preorder hufLeafNode ((hufTree rates).map Int16.ofNat))).map fun buf' =>
        (buf', (preorder hufLeafNode ((hufTree rates).map Int16.ofNat)).length) := by
  have hheight := hbuilt.holds.height_le
  obtain ⟨cells, hat, -, -⟩ := hbuilt.holds
  exact hufSerializeTree_eq hat (show _ < t.heap.next + 2 by omega) buf 0

/-- The first statements of the loop: read a block and build its tree. -/
theorem readAndBuild_eq (h : Running src sink config rest written e) (hrest : rest ≠ [])
    (hlocals : RunningLocals config.blocksize rest l) (hblocksize : 0 < config.blocksize)
    (hlen : rest.length < 2 ^ 64) :
    ∃ dest buf reader,
      (if l.leftToRead < config.blocksize then l.leftToRead else config.blocksize) =
        (rest.take config.blocksize).length ∧
      slice l.buf 0 (rest.take config.blocksize).length = .ok dest ∧
      Routine.within EncodeRun.bufioReader (hufBufioRead dest) e.run =
        .ok (.ok (rest.take config.blocksize), { e with reader }.run) ∧
      memcpy l.buf 0 (rest.take config.blocksize) = .ok buf ∧
      buf.length = config.blocksize ∧
      Reading src reader (rest.drop config.blocksize) ∧
      Routine.within EncodeRun.histogram (hufHistogramPopulate (rest.take config.blocksize))
          { e with reader }.run =
        .ok (.ok (),
          { e with reader, histogram := blockHistogram (rest.take config.blocksize) }.run) ∧
      Buildable ⟨e.tree.tree, blockHistogram (rest.take config.blocksize), e.tree.heap⟩ := by
  obtain ⟨htree, -, hhistogram⟩ := h.reset hrest
  have hpos := List.length_pos_iff.mpr hrest
  have hneed : (if l.leftToRead < config.blocksize then l.leftToRead else config.blocksize) =
      (rest.take config.blocksize).length := by
    rw [hlocals.leftToRead, List.length_take]
    split <;> omega
  have htake : (rest.take config.blocksize).length ≤ config.blocksize := by
    simp only [List.length_take]
    omega
  have hdest : ((l.buf.drop 0).take (rest.take config.blocksize).length).length =
      (rest.take config.blocksize).length := by
    simp only [List.length_take, List.length_drop, hlocals.buf]
    omega
  have hbuf : 0 + (rest.take config.blocksize).length ≤ l.buf.length := by
    rw [Nat.zero_add, hlocals.buf]
    exact htake
  have hblock : rest.take (rest.take config.blocksize).length = rest.take config.blocksize := by
    rw [List.length_take, ← List.take_take, List.take_length]
  have hdrop : rest.drop (rest.take config.blocksize).length = rest.drop config.blocksize := by
    rw [List.length_take]
    rcases Nat.le_total config.blocksize rest.length with hle | hle
    · rw [Nat.min_eq_left hle]
    · simp [Nat.min_eq_right hle, List.drop_eq_nil_of_le hle]
  obtain ⟨reader, hread, hreading, -⟩ := hufBufioRead_ok h.reading
    ((l.buf.drop 0).take (rest.take config.blocksize).length) (by
      rw [hdest, List.length_take]
      omega)
  rw [hdest, hblock] at hread
  rw [hdest, hdrop] at hreading
  have hshort : (rest.take config.blocksize).length < 2 ^ 64 := by
    simp only [List.length_take]
    omega
  refine ⟨_, _, reader, hneed, slice_of_le hbuf, EncodeState.within_reader hread,
    memcpy_of_le hbuf, ?_, hreading, ?_, ?_⟩
  · simp only [List.length_append, List.length_take, List.length_drop, hlocals.buf]
    omega
  · apply EncodeState.within_histogram (e := { e with reader })
    rw [show ({ e with reader } : EncodeState ρ ω).histogram = emptyHistogram from hhistogram]
    exact hufHistogramPopulate_eq hshort
  · refine ⟨countable_byteRates ?_ hshort, fun k hk => byteRates_below_least hk, ?_, h.allocations⟩
    · rw [ne_eq, List.take_eq_nil_iff, not_or]
      exact ⟨by omega, hrest⟩
    · show e.tree.tree.leaves = noLeaves
      rw [htree]

/-- The resets at the end of the loop, which are left out after the last block. -/
theorem resets_eq {tree : BinaryTree Int16} (hholds : e.tree.heap.Holds e.tree.tree.root tree)
    (halloc : e.tree.heap.allocations = []) (hmapping : e.mapping.length = hufAsciiCount)
    (hsymbols : e.mapping.symbols.length = hufAsciiCount) {block : List UInt8}
    (hhistogram : e.histogram =
      { blockHistogram block with frequencies := e.histogram.frequencies }) :
    ∃ e' : EncodeState ρ ω, e'.tree.tree = ⟨noLeaves, none⟩ ∧ e'.mapping = emptyMapping ∧
      e'.histogram = emptyHistogram ∧ e'.tree.heap.allocations = [] ∧ e'.config = e.config ∧
      e'.reader = e.reader ∧ e'.writer = e.writer ∧
      ∀ {α : Type} (rest : CRoutine (EncodeRun ρ ω) α),
        (do Routine.within EncodeRun.huffmanTree hufTreeReset
            Routine.within EncodeRun.histogram hufHistogramReset
            Routine.within EncodeRun.mapping hufSymbolMappingReset
            rest) e.run = rest e'.run := by
  obtain ⟨heap, htree, hheap⟩ := hufTreeReset_eq hholds
  have hmappingReset : hufSymbolMappingReset e.mapping = .ok (.ok (), emptyMapping) := by
    rw [hufSymbolMappingReset, hufSymbolMappingFreeElements_eq (hsymbols.trans hmapping.symm),
      hmapping]
    rfl
  have hhistogramReset : hufHistogramReset e.histogram = .ok (.ok (), emptyHistogram) := by
    rw [hhistogram]
    rfl
  let e' : EncodeState ρ ω :=
    { e with
      tree := ⟨⟨noLeaves, none⟩, heap⟩
      histogram := emptyHistogram
      mapping := emptyMapping }
  refine ⟨e', rfl, rfl, rfl, hheap.trans halloc, rfl, rfl, rfl, fun rest => ?_⟩
  rw [Routine.bind_of_ok (EncodeState.within_tree htree),
    Routine.bind_of_ok (EncodeState.within_histogram
      (e := { e with tree := ⟨⟨noLeaves, none⟩, heap⟩ }) hhistogramReset),
    Routine.bind_of_ok (EncodeState.within_mapping
      (e := { e with tree := ⟨⟨noLeaves, none⟩, heap⟩, histogram := emptyHistogram })
      hmappingReset)]

/-- The three parts of the header go to the buffered writer. -/
theorem writeHeader_eq (hwriting : Writing sink.toFallibleSink e.writer written) (count : ℕ)
    (words : List Int16) :
    ∃ writer₁ writer₂ writer₃,
      Routine.within EncodeRun.bufioWriter (hufBufioWrite (leBytes 8 count)) e.run =
        .ok (.ok (), { e with writer := writer₁ }.run) ∧
      Routine.within EncodeRun.bufioWriter (hufBufioWrite (wordBytes (Int16.ofNat words.length)))
        { e with writer := writer₁ }.run = .ok (.ok (), { e with writer := writer₂ }.run) ∧
      Routine.within EncodeRun.bufioWriter (hufBufioWrite (wordsBytes words))
        { e with writer := writer₂ }.run = .ok (.ok (), { e with writer := writer₃ }.run) ∧
      Writing sink.toFallibleSink writer₃ (written ++ blockHeader count words) := by
  obtain ⟨writer₁, hrun₁, hwriting₁⟩ := hufBufioWrite_ok hwriting (leBytes 8 count)
  obtain ⟨writer₂, hrun₂, hwriting₂⟩ :=
    hufBufioWrite_ok hwriting₁ (wordBytes (Int16.ofNat words.length))
  obtain ⟨writer₃, hrun₃, hwriting₃⟩ := hufBufioWrite_ok hwriting₂ (wordsBytes words)
  refine ⟨writer₁, writer₂, writer₃, EncodeState.within_writer hrun₁,
    EncodeState.within_writer (e := { e with writer := writer₁ }) hrun₂,
    EncodeState.within_writer (e := { e with writer := writer₂ }) hrun₃, ?_⟩
  rw [blockHeader, blockHead, List.append_assoc, ← List.append_assoc written,
    ← List.append_assoc]
  exact hwriting₃

/-- One iteration of the loop of `huf_encode`. -/
theorem encodeNextBlock_eq (h : Running src sink config rest written e) (hrest : rest ≠ [])
    (hlocals : RunningLocals config.blocksize rest l) (hblocksize : 0 < config.blocksize)
    (hlen : rest.length < 2 ^ 64) :
    (¬ Fits (rest.take config.blocksize) ∧ ∃ fault, encodeNextBlock l e.run = .error fault) ∨
      Fits (rest.take config.blocksize) ∧
        ∃ l' e', encodeNextBlock l e.run = .ok (.ok (.next l'), e'.run) ∧
          RunningLocals config.blocksize (rest.drop config.blocksize) l' ∧
          Running src sink config (rest.drop config.blocksize)
            (written ++ encodedBlock (rest.take config.blocksize)) e' := by
  obtain ⟨dest, buf, reader, hneed, hslice, hread, hcopy, hbuf, hreading, hpopulate, hbuildable⟩ :=
    readAndBuild_eq h hrest hlocals hblocksize hlen
  have hconfig : Routine.within EncodeRun.config Routine.get e.run =
      (.ok (.ok config, e.run) : Outcome Fault HufError (EncodeRun ρ ω) (HufConfig ρ ω)) := by
    rw [← h.config]
    exact EncodeState.within_config rfl
  obtain ⟨-, hmapping, -⟩ := h.reset hrest
  generalize hblock : rest.take config.blocksize = block at *
  let e₁ : EncodeState ρ ω := { e with reader, histogram := blockHistogram block }
  rw [encodeNextBlock, Routine.bind_of_ok hconfig]
  dsimp only
  rw [hneed, hslice, Routine.demand_ok_bind_apply, Routine.bind_of_ok hread, hcopy,
    Routine.demand_ok_bind_apply, Routine.bind_of_ok hpopulate]
  rcases hufTreeFromHistogram_eq hbuildable with
    ⟨hfault, hoverflows, -⟩ | ⟨hfits, t, htree, hbuilt, hhistogram⟩
  · exact Or.inl ⟨fun hfits => hfits.1 hoverflows, _, Routine.bind_of_fault
      (EncodeState.within_histogramTree_fault (e := e₁) hfault)⟩
  let e₂ : EncodeState ρ ω := { e₁ with tree := ⟨t.tree, t.heap⟩, histogram := t.histogram }
  obtain ⟨mapping, hcoding, hcoded⟩ := hufCreateCharCoding_eq (e := e₂) hbuilt hmapping
  let e₃ : EncodeState ρ ω := { e₂ with mapping }
  have hget : Routine.within EncodeRun.huffmanTree Routine.get e₃.run =
      (.ok (.ok ⟨t.tree, t.heap⟩, e₃.run) :
        Outcome Fault HufError (EncodeRun ρ ω) TreeStore) := EncodeState.within_tree rfl
  have hserialize : hufTreeSerialize ⟨t.tree, t.heap⟩ l.treeHead =
      (memcpy l.treeHead 0 (blockWords block)).map fun buf' => (buf', (blockWords block).length) :=
    hufTreeSerialize_built hbuilt l.treeHead
  rw [Routine.bind_of_ok (EncodeState.within_histogramTree (e := e₁) htree),
    Routine.bind_of_ok hcoding, Routine.bind_of_ok hget, hserialize]
  by_cases hwords : (blockWords block).length ≤ hufBtreeLen
  swap
  · refine Or.inl ⟨fun hfits => hwords hfits.2, .outOfBounds, ?_⟩
    rw [memcpy_of_lt (by simp only [hlocals.treeHead]; omega)]
    rfl
  refine Or.inr ⟨⟨hfits, hwords⟩, ?_⟩
  obtain ⟨treeHead, hhead, htreeHead, hsliceWords⟩ : ∃ treeHead,
      memcpy l.treeHead 0 (blockWords block) = .ok treeHead ∧ treeHead.length = hufBtreeLen ∧
      slice treeHead 0 (blockWords block).length = .ok (blockWords block) := by
    refine ⟨_, memcpy_of_le (by simp only [hlocals.treeHead]; omega), ?_, ?_⟩
    · simp only [List.length_append, List.length_take, List.length_drop, hlocals.treeHead]
      omega
    · rw [slice_of_le (by simp), List.take_zero, List.nil_append, List.drop_zero, List.take_left]
  obtain ⟨writer₁, writer₂, writer₃, hwrite₁, hwrite₂, hwrite₃, hwriting⟩ :=
    writeHeader_eq (e := e₃) h.writing block.length (blockWords block)
  let e₄ : EncodeState ρ ω :=
    { e₃ with
      writer := writer₃
      bitWriter := hufBitReadWriterReset }
  have hreset : Routine.within EncodeRun.bitWriter (Routine.modify fun _ => hufBitReadWriterReset)
      ({ e₃ with writer := writer₃ } : EncodeState ρ ω).run =
      (.ok (.ok (), e₄.run) : Outcome Fault HufError (EncodeRun ρ ω) Unit) :=
    EncodeState.within_bitWriter (e := { e₃ with writer := writer₃ }) rfl
  obtain ⟨bitWriter, writer₄, hpayload, hwriting₄⟩ :=
    hufEncodeBlock_eq (e := e₄) (maps_of_coded hcoded) rfl hwriting
  let e₅ : EncodeState ρ ω :=
    { e₄ with
      bitWriter := bitWriter
      writer := writer₄ }
  have hleft : sizeSub l.leftToRead block.length = (rest.drop config.blocksize).length := by
    have hle : block.length ≤ rest.length := by
      simp only [← hblock, List.length_take]
      omega
    rw [hlocals.leftToRead, sizeSub_of_le hle, ← hblock, List.length_take, List.length_drop]
    omega
  have hwritten : written ++ blockHeader block.length (blockWords block) ++
      pack (payloadBits (byteRates block) block) = written ++ encodedBlock block := by
    simp [encodedBlock]
  rw [hwritten] at hwriting₄
  rw [hhead, Except.map, Routine.demand_ok_bind_apply]
  dsimp only
  rw [Routine.bind_of_ok hwrite₁, Routine.bind_of_ok hwrite₂, hsliceWords,
    Routine.demand_ok_bind_apply, Routine.bind_of_ok hwrite₃, Routine.bind_of_ok hreset,
    Routine.bind_of_ok hpayload, hleft]
  by_cases hlast : (rest.drop config.blocksize).length = 0
  · rw [if_neg (not_not.mpr hlast)]
    have hnil := List.length_eq_zero_iff.mp hlast
    refine ⟨_, e₅, rfl, ⟨hbuf, htreeHead, rfl⟩, ?_⟩
    exact ⟨h.config, hreading, hwriting₄, hbuilt.allocations, ⟨_, hbuilt.holds⟩,
      hcoded.length_symbols.trans hcoded.length.symm, fun hne => absurd hnil hne⟩
  · rw [if_pos hlast]
    obtain ⟨e₆, htree₆, hmapping₆, hhistogram₆, halloc₆, hconfig₆, hreader₆, hwriter₆, hrun⟩ :=
      resets_eq (e := e₅) hbuilt.holds hbuilt.allocations hcoded.length hcoded.length_symbols
        hhistogram
    rw [hrun]
    refine ⟨_, e₆, rfl, ⟨hbuf, htreeHead, rfl⟩, ?_⟩
    exact ⟨hconfig₆.trans h.config, hreader₆ ▸ hreading, hwriter₆ ▸ hwriting₄, halloc₆,
      ⟨.nil, by rw [htree₆]; exact Heap.holds_none _⟩,
      by rw [hmapping₆]; exact List.length_replicate .., fun _ => ⟨htree₆, hmapping₆, hhistogram₆⟩⟩

end

end LibHuffman
