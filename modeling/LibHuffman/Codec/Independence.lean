/-
# Blocks are encoded independently

What the encoder writes for an input does not depend on the streams, on the buffers
or on the state of the heap, and what it writes for a block does not depend on the
blocks before it. An input may be split at any block boundary and its parts encoded
by different calls.
-/

import LibHuffman.Encode.Serialized
import LibHuffman.Codec.RoundTrip

namespace LibHuffman

open Foundation

/-- Through any streams and buffers, the encoder succeeds with these bytes for the
data. -/
def Writes (blocksize : ℕ) (data bytes : List UInt8) : Prop :=
  ∀ (ρ ω : Type) (src : Source ρ) (sink : Sink ω) (config : HufConfig ρ ω) (world : World ρ ω),
    config.reader = some src.readWriter → config.writer = some sink.readWriter →
    config.blocksize = blocksize → config.length = data.length →
    world.heap.allocations = [] → src.valid world.input → src.remaining world.input = data →
    ∃ world', hufEncode (some config) world = .ok (.ok (), world') ∧
      sink.content world'.output = sink.content world.output ++ bytes

section

variable {blocksize : ℕ} {data bytes : List UInt8}

theorem writes_encoded (hlen : data.length < 2 ^ 64)
    (hfits : ∀ block ∈ blocksOf blocksize data, Fits block) :
    Writes blocksize data (encoded blocksize data) := by
  intro ρ ω src sink config world hreader hwriter hblocksize hlength halloc hvalid hinput
  subst hblocksize hinput
  rcases hufEncode_eq src sink config world hreader hwriter halloc hvalid hlength
      (hlength ▸ hlen) with ⟨-, world', hrun, hwritten, -⟩ | ⟨hnot, -⟩
  · exact ⟨world', hrun, hwritten⟩
  · exact absurd hfits hnot

/-- There is one output for every input. -/
theorem Writes.unique {bytes' : List UInt8} (h : Writes blocksize data bytes)
    (h' : Writes blocksize data bytes') : bytes = bytes' := by
  obtain ⟨world, hrun, hwritten⟩ := h Fifo Fifo Fifo.source Fifo.sink
    { fifoConfig data.length 0 0 with blocksize := blocksize } (fifoWorld data)
    rfl rfl rfl rfl rfl trivial rfl
  obtain ⟨world', hrun', hwritten'⟩ := h' Fifo Fifo Fifo.source Fifo.sink
    { fifoConfig data.length 0 0 with blocksize := blocksize } (fifoWorld data)
    rfl rfl rfl rfl rfl trivial rfl
  rw [hrun] at hrun'
  cases hrun'
  rw [hwritten] at hwritten'
  exact List.append_cancel_left hwritten'

/-- Where the encoder succeeds, the trees of all blocks are small enough. -/
theorem Writes.fits (h : Writes blocksize data bytes) (hlen : data.length < 2 ^ 64) :
    ∀ block ∈ blocksOf blocksize data, Fits block := by
  obtain ⟨world, hrun, -⟩ := h Fifo Fifo Fifo.source Fifo.sink
    { fifoConfig data.length 0 0 with blocksize := blocksize } (fifoWorld data)
    rfl rfl rfl rfl rfl trivial rfl
  rcases hufEncode_eq Fifo.source Fifo.sink
      { fifoConfig data.length 0 0 with blocksize := blocksize } (fifoWorld data) rfl rfl rfl
      trivial rfl hlen with ⟨hfits, -⟩ | ⟨-, fault, hfault⟩
  · exact hfits
  · rw [hfault] at hrun
    cases hrun

theorem blocksOf_of_pos (hpos : 0 < blocksize) (data : List UInt8) :
    blocksOf blocksize data = cut blocksize data := by
  rw [blocksOf, if_neg (by omega)]

/-- An encoded input in two parts, of which the first is whole blocks. -/
theorem encoded_append (hpos : 0 < blocksize) {front : List UInt8}
    (hfront : blocksize ∣ front.length) (rest : List UInt8) :
    encoded blocksize (front ++ rest) = encoded blocksize front ++ encoded blocksize rest := by
  rw [encoded, encoded, encoded, blocksOf_of_pos hpos, blocksOf_of_pos hpos, blocksOf_of_pos hpos,
    cut_append hpos hfront, List.flatMap_append]

end

/-- An input whose first part is whole blocks is encoded like its two parts, one
after the other, whatever the buffers. -/
theorem hufEncode_append {blocksize : ℕ} (hpos : 0 < blocksize) {front rest : List UInt8}
    (hfront : blocksize ∣ front.length) (hlen : (front ++ rest).length < 2 ^ 64)
    (htrees : ∀ block ∈ cut blocksize (front ++ rest),
      ∃ words, SerializesTo block words ∧ words.length ≤ hufBtreeLen) :
    ∃ bytesFront bytesRest, Writes blocksize front bytesFront ∧
      Writes blocksize rest bytesRest ∧
      Writes blocksize (front ++ rest) (bytesFront ++ bytesRest) := by
  have hfits : ∀ block ∈ cut blocksize (front ++ rest), Fits block := fun block hblock => by
    have hle := length_le_of_mem_cut hpos hblock
    exact (fits_iff (ne_nil_of_mem_cut hpos hblock) (Nat.lt_of_le_of_lt hle hlen)).mpr
      (htrees block hblock)
  have hwhole := writes_encoded hlen ((blocksOf_of_pos hpos (front ++ rest)).symm ▸ hfits)
  rw [cut_append hpos hfront] at hfits
  rw [List.length_append] at hlen
  have hfrontFits : ∀ block ∈ blocksOf blocksize front, Fits block := fun block hblock => by
    rw [blocksOf_of_pos hpos] at hblock
    exact hfits block (List.mem_append_left _ hblock)
  have hrestFits : ∀ block ∈ blocksOf blocksize rest, Fits block := fun block hblock => by
    rw [blocksOf_of_pos hpos] at hblock
    exact hfits block (List.mem_append_right _ hblock)
  refine ⟨encoded blocksize front, encoded blocksize rest,
    writes_encoded (by omega) hfrontFits, writes_encoded (by omega) hrestFits, ?_⟩
  rw [← encoded_append hpos hfront]
  exact hwhole

/-- Two blocks of two bytes, and a third one that is not full. -/
theorem hufEncode_append_blocks : ∃ bytesFront bytesRest,
    Writes 2 [1, 2, 2, 1] bytesFront ∧ Writes 2 [3] bytesRest ∧
      Writes 2 [1, 2, 2, 1, 3] (bytesFront ++ bytesRest) := by
  have hsmall : SmallTrees 2 [1, 2, 2, 1, 3] := smallTrees_of_short (by decide)
  refine hufEncode_append (by decide) (show 2 ∣ [1, 2, 2, 1].length by decide) (by decide)
    fun block hblock => ?_
  have hle : block.length ≤ 5 := length_le_of_mem_cut (by decide) hblock
  exact (fits_iff (ne_nil_of_mem_cut (by decide) hblock) (by omega)).mp
    (hsmall.fits (by decide) block (blocksOf_of_pos Nat.two_pos _ ▸ hblock))

end LibHuffman
