/-
# The limit on the size of a tree

The encoder serializes the tree of a block into an array of `HUF_BTREE_LEN` words,
without a check, and the decoder rejects trees of more words. The tree of a block
has two nodes for every distinct byte: a leaf, and the node that the merge loop adds
for it, the last of which has one child. It takes four words for every distinct
byte and one more, so that a block in which every byte value occurs is one word too
long.
-/

import LibHuffman.Codec.RoundTrip

namespace LibHuffman

open Foundation

/-- What the two sides should agree on, for the tree that the encoder built for a
block. -/
structure WithinTreeLimit (block : List UInt8) (built : HistogramTree) : Prop where
  /-- The tree has at most `HUF_BTREE_LEN` words. -/
  words : ∀ buf buf' count, hufTreeSerialize ⟨built.tree, built.heap⟩ buf = .ok (buf', count) →
    count ≤ hufBtreeLen
  /-- Serialization stays inside the array of `huf_encode`. -/
  array : ∀ treeHead : List Int16, treeHead.length = hufBtreeLen →
    ∃ result, hufTreeSerialize ⟨built.tree, built.heap⟩ treeHead = .ok result
  /-- The decoder does not reject the tree in what the encoder wrote. -/
  accepted : ∀ {ρ ω ρ' ω' : Type} (esrc : Source ρ) (esink : Sink ω) (dsrc : Source ρ')
    (dsink : Sink ω') (econfig : HufConfig ρ ω) (eworld eworld' : World ρ ω) (bytes : List UInt8)
    (dconfig : HufConfig ρ' ω') (dworld dworld' : World ρ' ω'),
    econfig.reader = some esrc.readWriter → econfig.writer = some esink.readWriter →
    eworld.heap.allocations = [] → esrc.valid eworld.input →
    esrc.remaining eworld.input = block → econfig.length = block.length →
    hufEncode (some econfig) eworld = .ok (.ok (), eworld') →
    esink.content eworld'.output = esink.content eworld.output ++ bytes →
    dconfig.reader = some dsrc.readWriter → dconfig.writer = some dsink.readWriter →
    dworld.heap.allocations = [] → dsrc.valid dworld.input →
    dsrc.remaining dworld.input = bytes → dconfig.length = bytes.length →
    hufDecode (some dconfig) dworld ≠ .ok (.error .btreeOverflow, dworld')

section

variable {block : List UInt8} {histogram : HufHistogram} {heap : Heap} {built : HistogramTree}

/-- The tree of a block, serialized into any array. -/
theorem hufTreeSerialize_block (hne : block ≠ []) (hlen : block.length < 2 ^ 64)
    (halloc : heap.allocations = [])
    (hcount : hufHistogramPopulate block emptyHistogram = .ok (.ok (), histogram))
    (hbuild : hufTreeFromHistogram ⟨⟨noLeaves, none⟩, histogram, heap⟩ = .ok (.ok (), built))
    (buf : List Int16) :
    hufTreeSerialize ⟨built.tree, built.heap⟩ buf =
      (memcpy buf 0 (blockWords block)).map fun buf' => (buf', (blockWords block).length) := by
  rw [hufHistogramPopulate_eq hlen] at hcount
  cases hcount
  rcases hufTreeFromHistogram_eq (buildable_block hne hlen heap halloc) with
    ⟨hfault, -⟩ | ⟨-, built', hrun, hbuilt, -⟩
  · rw [hfault] at hbuild
    cases hbuild
  · rw [hrun] at hbuild
    cases hbuild
    exact hufTreeSerialize_built hbuilt buf

/-- An array with room for the words of the tree. -/
theorem hufTreeSerialize_of_le (hne : block ≠ []) (hlen : block.length < 2 ^ 64)
    (halloc : heap.allocations = [])
    (hcount : hufHistogramPopulate block emptyHistogram = .ok (.ok (), histogram))
    (hbuild : hufTreeFromHistogram ⟨⟨noLeaves, none⟩, histogram, heap⟩ = .ok (.ok (), built))
    (buf : List Int16) (hroom : 4 * block.toFinset.card + 1 ≤ buf.length) :
    ∃ buf', hufTreeSerialize ⟨built.tree, built.heap⟩ buf =
      .ok (buf', 4 * block.toFinset.card + 1) := by
  have hwords := length_blockWords hne hlen
  rw [hufTreeSerialize_block hne hlen halloc hcount hbuild, memcpy_of_le (by omega), hwords]
  exact ⟨_, rfl⟩

/-- An array that is too short is written past its end. -/
theorem hufTreeSerialize_of_lt (hne : block ≠ []) (hlen : block.length < 2 ^ 64)
    (halloc : heap.allocations = [])
    (hcount : hufHistogramPopulate block emptyHistogram = .ok (.ok (), histogram))
    (hbuild : hufTreeFromHistogram ⟨⟨noLeaves, none⟩, histogram, heap⟩ = .ok (.ok (), built))
    (buf : List Int16) (hroom : buf.length < 4 * block.toFinset.card + 1) :
    hufTreeSerialize ⟨built.tree, built.heap⟩ buf = .error .outOfBounds := by
  have hwords := length_blockWords hne hlen
  rw [hufTreeSerialize_block hne hlen halloc hcount hbuild, memcpy_of_lt (by omega)]
  rfl

/-- The limit holds for the blocks in which some byte value does not occur. -/
theorem withinTreeLimit_iff (hne : block ≠ []) (hlen : block.length < 2 ^ 64)
    (halloc : heap.allocations = [])
    (hcount : hufHistogramPopulate block emptyHistogram = .ok (.ok (), histogram))
    (hbuild : hufTreeFromHistogram ⟨⟨noLeaves, none⟩, histogram, heap⟩ = .ok (.ok (), built)) :
    WithinTreeLimit block built ↔ block.toFinset.card ≤ 255 := by
  have hlimit : hufBtreeLen = 1024 := rfl
  apply Iff.intro
  · intro h
    obtain ⟨buf', hserialize⟩ := hufTreeSerialize_of_le hne hlen halloc hcount hbuild
      (List.replicate (4 * block.toFinset.card + 1) 0) (List.length_replicate).ge
    have := h.words _ _ _ hserialize
    omega
  · intro hcard
    refine ⟨?_, ?_, ?_⟩
    · intro buf buf' count hserialize
      rcases Nat.lt_or_ge buf.length (4 * block.toFinset.card + 1) with hroom | hroom
      · rw [hufTreeSerialize_of_lt hne hlen halloc hcount hbuild buf hroom] at hserialize
        cases hserialize
      · obtain ⟨_, heq⟩ := hufTreeSerialize_of_le hne hlen halloc hcount hbuild buf hroom
        rw [heq] at hserialize
        cases hserialize
        omega
    · intro treeHead htreeHead
      obtain ⟨buf', heq⟩ := hufTreeSerialize_of_le hne hlen halloc hcount hbuild
        treeHead (by omega)
      exact ⟨_, heq⟩
    · intro ρ ω ρ' ω' esrc esink dsrc dsink econfig eworld eworld' bytes dconfig dworld dworld'
        hereader hewriter healloc hevalid hinput helength hrun hwritten hdreader hdwriter hdalloc
        hdvalid hcontent hdlength hreject
      subst hinput
      rcases hufEncode_eq esrc esink econfig eworld hereader hewriter healloc hevalid helength
          (helength ▸ hlen) with ⟨hfits, _, hencode, hencoded, -⟩ | ⟨-, fault, hfault⟩
      · rw [hencode] at hrun
        cases hrun
        rw [hencoded] at hwritten
        obtain rfl := List.append_cancel_left hwritten
        obtain ⟨_, hdecode, -⟩ := hufDecode_encoded dsrc dsink dconfig dworld hdreader hdwriter
          hdalloc hdvalid hlen hfits hcontent hdlength
        rw [hdecode] at hreject
        cases hreject
      · rw [hfault] at hrun
        cases hrun

end

/-- The tree of a block that is not too long is built. -/
theorem built_block {block : List UInt8} (hne : block ≠ []) (hlen : block.length < 2 ^ 63) :
    ∃ built, hufTreeFromHistogram ⟨⟨noLeaves, none⟩, blockHistogram block, emptyHeap⟩ =
      .ok (.ok (), built) := by
  have hlt : block.length < 2 ^ 64 := by omega
  rcases hufTreeFromHistogram_eq (buildable_block hne hlt emptyHeap rfl) with
    ⟨-, hoverflows, -⟩ | ⟨-, built, hrun, -⟩
  · have := length_of_overflows hne hlt hoverflows
    omega
  · exact ⟨built, hrun⟩

/-- The limit holds for a block of three distinct bytes. -/
theorem withinTreeLimit_three : ∃ built,
    hufTreeFromHistogram ⟨⟨noLeaves, none⟩, blockHistogram [7, 9, 7, 8], emptyHeap⟩ =
      .ok (.ok (), built) ∧
    (WithinTreeLimit [7, 9, 7, 8] built ↔ [(7 : UInt8), 9, 7, 8].toFinset.card ≤ 255) := by
  obtain ⟨built, hbuild⟩ := built_block (List.cons_ne_nil 7 [9, 7, 8]) (by decide)
  exact ⟨built, hbuild, withinTreeLimit_iff (by decide) (by decide) rfl
    (hufHistogramPopulate_eq (by decide)) hbuild⟩

/-- Every byte value once. -/
def everyByte : List UInt8 := (List.range 256).map UInt8.ofNat

theorem length_everyByte : everyByte.length = 256 := by
  simp [everyByte]

theorem card_everyByte : everyByte.toFinset.card = 256 := by
  have hnodup : everyByte.Nodup := by
    apply List.nodup_range.map_on
    intro a ha b hb hab
    rw [List.mem_range] at ha hb
    have htoNat := congrArg UInt8.toNat hab
    rwa [UInt8.toNat_ofNat_of_lt' ha, UInt8.toNat_ofNat_of_lt' hb] at htoNat
  simp [List.toFinset_card_of_nodup hnodup, length_everyByte]

/-- The tree of a block in which every byte value occurs has 1025 words, and the
array of the encoder 1024. -/
theorem everyByte_exceeds_treeLimit : ∃ built,
    hufHistogramPopulate everyByte emptyHistogram = .ok (.ok (), blockHistogram everyByte) ∧
    hufTreeFromHistogram ⟨⟨noLeaves, none⟩, blockHistogram everyByte, emptyHeap⟩ =
      .ok (.ok (), built) ∧
    (∃ buf', hufTreeSerialize ⟨built.tree, built.heap⟩ (List.replicate 1025 0) =
      .ok (buf', 1025)) ∧
    hufTreeSerialize ⟨built.tree, built.heap⟩ (List.replicate hufBtreeLen 0) =
      .error .outOfBounds ∧
    ¬ WithinTreeLimit everyByte built := by
  have hlen := length_everyByte
  have hcard := card_everyByte
  have hne : everyByte ≠ [] := List.ne_nil_of_length_pos (by omega)
  have hlt : everyByte.length < 2 ^ 64 := by omega
  obtain ⟨built, hbuild⟩ := built_block hne (by omega)
  have hcount := hufHistogramPopulate_eq hlt
  have hwords := hufTreeSerialize_of_le hne hlt rfl hcount hbuild (List.replicate 1025 0)
    (by rw [hcard, List.length_replicate])
  rw [hcard] at hwords
  have harray := hufTreeSerialize_of_lt hne hlt rfl hcount hbuild
    (List.replicate hufBtreeLen 0) (by rw [hcard, List.length_replicate]; decide)
  refine ⟨built, hcount, hbuild, hwords, harray, fun hlimit => ?_⟩
  obtain ⟨result, hresult⟩ := hlimit.array _ List.length_replicate
  rw [harray] at hresult
  cases hresult

end LibHuffman
