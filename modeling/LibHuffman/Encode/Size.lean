/-
# The size of encoded data

The payload of a block takes one bit for each byte and, behind it, no less than the information
in the block and less than one bit more for each byte. As a code of fixed length would do, no
byte takes more than nine bits, so that encoded data is not much longer than the data.
-/

import LibHuffman.Codec.Independence
import LibHuffman.Encode.CodeCost
import LibHuffman.Foundation.Entropy

namespace LibHuffman

open Foundation Allocating

/-! ## Depths -/

/-- Without the first bit no depths that satisfy Kraft's inequality cost less. -/
theorem Forest.Countable.codeCost_le_depths {rates : List ℕ} (h : Forest.Countable rates)
    (htotal : (Forest.seed rates).pool.weight < 2 ^ 63) {depth : ℕ → ℕ}
    (hkraft : Kraft ((Forest.counted rates).val.map depth)) :
    codeCost (fun k => rates.getD k 0) (Forest.counted rates) (fun k => (hufCode rates k).tail) ≤
      ∑ k ∈ Forest.counted rates, rates.getD k 0 * depth k := by
  have hbuilds := h.builds htotal
  have hnodup : (values (hufTree rates).left).Nodup := by
    have hvalues := h.values_nodup
    generalize hufTree rates = tree at hvalues
    cases tree with
    | nil => exact List.nodup_nil
    | node a l r =>
        rw [values, List.nodup_cons, List.nodup_append] at hvalues
        exact hvalues.2.1
  rw [← cost_eq_codeCost hnodup hbuilds.leaves_ofLeaves fun k hk => (h.hufCode_eq hk).2]
  exact hbuilds.cost_le_depths depth hkraft

variable {block : List UInt8}

/-! ## The bits of a payload -/

/-- A sum over a block, byte by byte and value by value. -/
theorem sum_map_eq_sum_count (block : List UInt8) (f : UInt8 → ℕ) :
    (block.map f).sum = ∑ byte ∈ block.toFinset, block.count byte * f byte := by
  rw [Finset.sum_list_map_count]
  simp only [smul_eq_mul]

/-- Without the first bit of each code a block takes no more bits than with any depths that
satisfy Kraft's inequality. -/
theorem shortBits_le_depths (hne : block ≠ []) (hlen : block.length < 2 ^ 63)
    {depth : UInt8 → ℕ} (hkraft : Kraft (block.toFinset.val.map depth)) :
    shortBits block ≤ ∑ byte ∈ block.toFinset, block.count byte * depth byte := by
  have hrates := countable_byteRates hne (by omega : block.length < 2 ^ 64)
  have hkraft' : Kraft ((Forest.counted (byteRates block)).val.map fun k =>
      depth (UInt8.ofNat k)) := by
    have hdepth : (fun k => depth (UInt8.ofNat k)) ∘ UInt8.toNat = depth := by
      funext byte
      simp
    rw [counted_byteRates, Finset.image_val_of_injOn toNat_injective.injOn, Multiset.map_map,
      hdepth]
    exact hkraft
  have hle := hrates.codeCost_le_depths (by rwa [weight_byteRates]) hkraft'
  rw [codeCost, ← sum_map_toNat block fun k => (hufCode (byteRates block) k).tail.length,
    ← sum_map_toNat block fun k => depth (UInt8.ofNat k)] at hle
  simp only [UInt8.ofNat_toNat] at hle
  rw [← sum_map_eq_sum_count]
  exact hle

/-- A payload takes no more bits than numbers of its distinct bytes would. -/
theorem shortBits_le_clog (hne : block ≠ []) (hlen : block.length < 2 ^ 63) :
    shortBits block ≤ block.length * Nat.clog 2 block.toFinset.card := by
  have hle := shortBits_le_depths hne hlen (kraft_clog block.toFinset)
  rwa [← Finset.sum_mul, List.sum_toFinset_count_eq_length] at hle

/-- A block takes twelve bytes, eight for each distinct byte, and its payload. -/
theorem length_encodedBlock (hne : block ≠ []) (hlen : block.length < 2 ^ 64) :
    (encodedBlock block).length =
      12 + 8 * block.toFinset.card + (shortBits block + block.length + 7) / 8 := by
  rw [encodedBlock, List.length_append, blockHeader, List.length_append, length_blockHead,
    length_wordsBytes, length_blockWords hne hlen, length_pack, length_payloadBits hne hlen]
  omega

/-- Every byte takes at most nine bits. -/
theorem shortBits_le_eight (hne : block ≠ []) (hlen : block.length < 2 ^ 63) :
    shortBits block ≤ 8 * block.length := by
  have hcard : block.toFinset.card ≤ 2 ^ 8 :=
    card_counted_byteRates block ▸ Forest.card_counted_le (byteRates block)
  have hle := shortBits_le_clog hne hlen
  have hclog := Nat.mul_le_mul_left block.length (Nat.clog_le_of_le_pow hcard)
  omega

/-- Blocks that fit are not compressed by more than a factor of eight, and grow by no more than an
eighth, apart from what each of them takes for its tree. -/
theorem length_encodedBlock_bounds (hne : block ≠ []) (hlen : block.length < 2 ^ 63)
    (hfits : Fits block) :
    20 + (block.length + 7) / 8 ≤ (encodedBlock block).length ∧
      (encodedBlock block).length ≤ 2053 + block.length + block.length / 8 := by
  have hlt : block.length < 2 ^ 64 := by omega
  have hcard : 0 < block.toFinset.card :=
    Finset.card_pos.mpr ((List.toFinset_nonempty_iff block).mpr hne)
  have hwords := hfits.2
  rw [length_blockWords hne hlt, show hufBtreeLen = 1024 from rfl] at hwords
  have hbits := shortBits_le_eight hne hlen
  rw [length_encodedBlock hne hlt]
  omega

theorem length_flatMap_encodedBlock_bounds {blocks : List (List UInt8)}
    (h : ∀ block ∈ blocks, block ≠ [] ∧ block.length < 2 ^ 63 ∧ Fits block) :
    20 * blocks.length + blocks.flatten.length / 8 ≤ (blocks.flatMap encodedBlock).length ∧
      (blocks.flatMap encodedBlock).length ≤
        2053 * blocks.length + blocks.flatten.length + blocks.flatten.length / 8 := by
  induction blocks with
  | nil => simp
  | cons block blocks ih =>
      rcases List.forall_mem_cons.mp h with ⟨⟨hne, hlen, hfits⟩, hlater⟩
      have hblock := length_encodedBlock_bounds hne hlen hfits
      have hblocks := ih hlater
      simp only [List.flatMap_cons, List.flatten_cons, List.length_append, List.length_cons]
      omega

/-- What `huf_encode` writes is at least an eighth of its input and twenty bytes for each block,
and at most nine eighths of its input and 2053 bytes for each block. -/
theorem hufEncode_length {ρ ω : Type} (src : Source ρ) (sink : Sink ω) (config : HufConfig ρ ω)
    (world : World ρ ω) (hreader : config.reader = some src.readWriter)
    (hwriter : config.writer = some sink.readWriter) (halloc : world.heap.allocations = [])
    (hvalid : src.valid world.input) {data : List UInt8}
    (hdata : src.remaining world.input = data) (hlength : config.length = data.length)
    (hlen : data.length < 2 ^ 63) (hsmall : SmallTrees config.blocksize data) :
    ∃ world' written, hufEncode (some config) world = .ok (.ok (), world') ∧
      sink.content world'.output = sink.content world.output ++ written ∧
      20 * (blocksOf config.blocksize data).length + data.length / 8 ≤ written.length ∧
      written.length ≤
        2053 * (blocksOf config.blocksize data).length + data.length + data.length / 8 := by
  have hfits := hsmall.fits hlen
  have hbounds := length_flatMap_encodedBlock_bounds fun block hblock =>
    ⟨(of_mem_blocksOf hblock).1, Nat.lt_of_le_of_lt (of_mem_blocksOf hblock).2 hlen,
      hfits block hblock⟩
  rw [blocksOf_flatten] at hbounds
  subst hdata
  rcases hufEncode_eq src sink config world hreader hwriter halloc hvalid hlength (by omega) with
    ⟨-, world', hrun, hcontent, -⟩ | ⟨hnot, -⟩
  · exact ⟨world', _, hrun, hcontent, hbounds⟩
  · exact absurd hfits hnot

/-- Ten bytes in three blocks. -/
theorem hufEncode_length_ten :
    ∃ world' written, hufEncode (some { fifoConfig 10 3 0 with blocksize := 4 })
        (fifoWorld [1, 2, 3, 3, 3, 3, 2, 4, 2, 5]) = .ok (.ok (), world') ∧
      world'.output.stored = [] ++ written ∧ 20 * 3 + 1 ≤ written.length ∧
      written.length ≤ 2053 * 3 + 10 + 1 := by
  have hsmall : SmallTrees 4 [1, 2, 3, 3, 3, 3, 2, 4, 2, 5] := smallTrees_of_short (by decide)
  have hblocks : (blocksOf 4 ([1, 2, 3, 3, 3, 3, 2, 4, 2, 5] : List UInt8)).length = 3 := by
    rw [blocksOf_of_pos (by decide), length_cut (by decide)]
    rfl
  have hdata : Fifo.source.remaining (fifoWorld [1, 2, 3, 3, 3, 3, 2, 4, 2, 5]).input =
      [1, 2, 3, 3, 3, 3, 2, 4, 2, 5] := rfl
  rcases hufEncode_length Fifo.source Fifo.sink { fifoConfig 10 3 0 with blocksize := 4 }
    (fifoWorld [1, 2, 3, 3, 3, 3, 2, 4, 2, 5]) rfl rfl rfl trivial hdata rfl (by decide) hsmall with
    ⟨world', written, hrun, hcontent, hlower, hupper⟩
  dsimp only at hlower hupper
  rw [hblocks] at hlower hupper
  exact ⟨world', written, hrun, hcontent, hlower, hupper⟩

end LibHuffman
