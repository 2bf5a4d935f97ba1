/-
# Decoding what was encoded

The two halves of the library meet in the block grammar: the encoder writes blocks
of its input, and the decoder accepts blocks and writes their symbols. Neither the
buffers of the two sides nor their streams have to be the same. The decoder does
not learn the blocksize, and does not need it.
-/

import LibHuffman.Decode.Acceptance
import LibHuffman.Encode.Serialized

namespace LibHuffman

open Foundation

variable {ρ ω ρ' ω' : Type}

/-- No block of the input has a tree of more words than the decoder accepts. -/
def SmallTrees (blocksize : ℕ) (data : List UInt8) : Prop :=
  ∀ block ∈ blocksOf blocksize data, ∀ words, SerializesTo block words →
    words.length ≤ hufBtreeLen

/-- The trees of an input that is too short for a signed sum to overflow are all
built, so that small trees are what is left to ask for. -/
theorem SmallTrees.fits {blocksize : ℕ} {data : List UInt8} (h : SmallTrees blocksize data)
    (hlen : data.length < 2 ^ 63) : ∀ block ∈ blocksOf blocksize data, Fits block := by
  intro block hblock
  obtain ⟨hne, hle⟩ := of_mem_blocksOf hblock
  have hlt : block.length < 2 ^ 64 := by omega
  have hbuilt : ¬ (Forest.seed (byteRates block)).Overflows := fun hoverflows => by
    have := length_of_overflows hne hlt hoverflows
    omega
  exact ⟨hbuilt, h block hblock _ ((serializesTo_iff hne hlt).mpr ⟨hbuilt, rfl⟩)⟩

/-- The decoder gives back the input of the encoder. -/
theorem hufDecode_encoded (src : Source ρ) (sink : Sink ω) (config : HufConfig ρ ω)
    (world : World ρ ω) (hreader : config.reader = some src.readWriter)
    (hwriter : config.writer = some sink.readWriter) (halloc : world.heap.allocations = [])
    (hvalid : src.valid world.input) {blocksize : ℕ} {data : List UInt8}
    (hlen : data.length < 2 ^ 64) (hfits : ∀ block ∈ blocksOf blocksize data, Fits block)
    (hcontent : src.remaining world.input = encoded blocksize data)
    (hlength : config.length = (encoded blocksize data).length) :
    ∃ world', hufDecode (some config) world = .ok (.ok (), world') ∧
      sink.content world'.output = sink.content world.output ++ data := by
  have hends := hufDecode_ends src sink config world hreader hwriter halloc hvalid
  rw [hcontent, hlength, readBlocks_of_blocks (blocks_encoded hlen hfits)] at hends
  rcases hends with ⟨world', hrun, hwritten, -⟩
  exact ⟨world', hrun, hwritten⟩

/-- Different inputs have different outputs. -/
theorem encoded_injective {blocksize : ℕ} {data data' : List UInt8} (hlen : data.length < 2 ^ 64)
    (hlen' : data'.length < 2 ^ 64) (hfits : ∀ block ∈ blocksOf blocksize data, Fits block)
    (hfits' : ∀ block ∈ blocksOf blocksize data', Fits block)
    (h : encoded blocksize data = encoded blocksize data') : data = data' := by
  have hread := readBlocks_of_blocks (blocks_encoded hlen hfits)
  rw [h, readBlocks_of_blocks (blocks_encoded hlen' hfits')] at hread
  cases hread
  rfl

/-- The round trip through any streams and buffers: if no block of the data needs
too large a tree, then encoding succeeds, and decoding what it wrote succeeds and
writes the data. -/
theorem hufDecode_hufEncode (esrc : Source ρ) (esink : Sink ω) (dsrc : Source ρ')
    (dsink : Sink ω') (econfig : HufConfig ρ ω) (eworld : World ρ ω) {data : List UInt8}
    (hreader : econfig.reader = some esrc.readWriter)
    (hwriter : econfig.writer = some esink.readWriter) (halloc : eworld.heap.allocations = [])
    (hvalid : esrc.valid eworld.input) (hdata : esrc.remaining eworld.input = data)
    (hlen : data.length < 2 ^ 63) (hlength : econfig.length = data.length)
    (hsmall : SmallTrees econfig.blocksize data) :
    ∃ bytes eworld', hufEncode (some econfig) eworld = .ok (.ok (), eworld') ∧
      esink.content eworld'.output = esink.content eworld.output ++ bytes ∧
      ∀ (dconfig : HufConfig ρ' ω') (dworld : World ρ' ω'),
        dconfig.reader = some dsrc.readWriter → dconfig.writer = some dsink.readWriter →
        dworld.heap.allocations = [] → dsrc.valid dworld.input →
        dsrc.remaining dworld.input = bytes → dconfig.length = bytes.length →
        ∃ dworld', hufDecode (some dconfig) dworld = .ok (.ok (), dworld') ∧
          dsink.content dworld'.output = dsink.content dworld.output ++ data := by
  subst hdata
  have hlt : (esrc.remaining eworld.input).length < 2 ^ 64 := by omega
  have hfits := hsmall.fits hlen
  rcases hufEncode_eq esrc esink econfig eworld hreader hwriter halloc hvalid hlength
      (hlength ▸ hlt) with ⟨-, eworld', hrun, hwritten, -⟩ | ⟨hnot, -⟩
  · refine ⟨_, eworld', hrun, hwritten, ?_⟩
    intro dconfig dworld hdreader hdwriter hdalloc hdvalid hcontent hdlength
    exact hufDecode_encoded dsrc dsink dconfig dworld hdreader hdwriter hdalloc hdvalid hlt hfits
      hcontent hdlength
  · exact absurd hfits hnot

/-- Short data has small trees. -/
theorem smallTrees_of_short {blocksize : ℕ} {data : List UInt8} (hshort : data.length ≤ 255) :
    SmallTrees blocksize data := by
  intro block hblock words hserializes
  obtain ⟨hne, hle⟩ := of_mem_blocksOf hblock
  have hlt : block.length < 2 ^ 64 := by omega
  obtain ⟨-, rfl⟩ := (serializesTo_iff hne hlt).mp hserializes
  have hcard := List.toFinset_card_le block
  rw [length_blockWords hne hlt]
  show _ ≤ 1024
  omega

/-- Ten bytes in blocks of four, through buffers of different sizes. -/
theorem hufDecode_hufEncode_fifo :
    ∃ bytes eworld', hufEncode (some { fifoConfig 10 3 0 with blocksize := 4 })
        (fifoWorld [1, 2, 3, 3, 3, 3, 2, 4, 2, 5]) = .ok (.ok (), eworld') ∧
      eworld'.output.stored = bytes ∧
      ∃ dworld', hufDecode (some (fifoConfig bytes.length 0 7)) (fifoWorld bytes) =
          .ok (.ok (), dworld') ∧ dworld'.output.stored = [1, 2, 3, 3, 3, 3, 2, 4, 2, 5] := by
  obtain ⟨bytes, eworld', hrun, hwritten, hdecodes⟩ := hufDecode_hufEncode Fifo.source Fifo.sink
    Fifo.source Fifo.sink { fifoConfig 10 3 0 with blocksize := 4 }
    (fifoWorld [1, 2, 3, 3, 3, 3, 2, 4, 2, 5]) rfl rfl rfl trivial rfl (by decide)
    rfl (smallTrees_of_short (by decide))
  obtain ⟨dworld', hdecode, hcontent⟩ := hdecodes (fifoConfig bytes.length 0 7) (fifoWorld bytes)
    rfl rfl rfl trivial rfl rfl
  exact ⟨bytes, eworld', hrun, hwritten, dworld', hdecode, hcontent⟩

end LibHuffman
