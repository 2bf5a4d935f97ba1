/-
# The tree of a block in words

What `huf_histogram_populate`, `huf_tree_from_histogram` and `huf_tree_serialize` do
with a block, taken by themselves: the words they produce are those of
`blockWords`, four for every distinct byte and one more. Every block that the encoder
writes is one of the block grammar, with the bytes of the block as its symbols.
-/

import LibHuffman.Encode.Stream

namespace LibHuffman

open Foundation

/-- A heap before the first allocation, which does not run out of memory. -/
def emptyHeap : Heap := ⟨fun _ => none, 0, []⟩

/-- The code counts a block, builds its tree and serializes it, in some array, to
these words. -/
def SerializesTo (block : List UInt8) (words : List Int16) : Prop :=
  ∃ histogram built buf unused,
    hufHistogramPopulate block emptyHistogram = .ok (.ok (), histogram) ∧
    hufTreeFromHistogram ⟨⟨noLeaves, none⟩, histogram, emptyHeap⟩ = .ok (.ok (), built) ∧
    hufTreeSerialize ⟨built.tree, built.heap⟩ buf = .ok (words ++ unused, words.length)

section

variable {block : List UInt8} {words : List Int16}

theorem buildable_block (hne : block ≠ []) (hlen : block.length < 2 ^ 64) (heap : Heap)
    (halloc : heap.allocations = []) :
    Buildable ⟨⟨noLeaves, none⟩, blockHistogram block, heap⟩ :=
  ⟨countable_byteRates hne hlen, fun _ hk => byteRates_below_least hk, rfl, halloc⟩

/-- A signed sum overflows only in a block of at least 2^63 bytes. -/
theorem length_of_overflows (hne : block ≠ []) (hlen : block.length < 2 ^ 64)
    (hoverflows : (Forest.seed (byteRates block)).Overflows) : 2 ^ 63 ≤ block.length := by
  rcases hufTreeFromHistogram_eq (buildable_block hne hlen emptyHeap rfl) with
    ⟨-, -, hlarge⟩ | ⟨hfits, -⟩
  · rw [← weight_byteRates block]
    exact hlarge
  · exact absurd hoverflows hfits

theorem numNodes_map {α β : Type} (f : α → β) (tree : BinaryTree α) :
    (tree.map f).numNodes = tree.numNodes := by
  induction tree with
  | nil => rfl
  | node a left right ihLeft ihRight =>
      rw [BinaryTree.map, BinaryTree.numNodes, ihLeft, ihRight, BinaryTree.numNodes]

/-- A tree takes four words for every distinct byte, and one more. -/
theorem length_blockWords (hne : block ≠ []) (hlen : block.length < 2 ^ 64) :
    (blockWords block).length = 4 * block.toFinset.card + 1 := by
  rw [blockWords, length_preorder, numNodes_map, (countable_byteRates hne hlen).numNodes_eq,
    card_counted_byteRates]
  omega

/-- The words of a block, if its tree can be built at all. -/
theorem serializesTo_iff (hne : block ≠ []) (hlen : block.length < 2 ^ 64) :
    SerializesTo block words ↔
      ¬ (Forest.seed (byteRates block)).Overflows ∧ words = blockWords block := by
  have hpopulate := hufHistogramPopulate_eq hlen
  apply Iff.intro
  · intro h
    rcases h with ⟨histogram, built, buf, unused, hcount, hbuild, hserialize⟩
    rw [hpopulate] at hcount
    cases hcount
    rcases hufTreeFromHistogram_eq (buildable_block hne hlen emptyHeap rfl) with
      ⟨hfault, -⟩ | ⟨hfits, built', hrun, hbuilt, -⟩
    · rw [hfault] at hbuild
      cases hbuild
    · rw [hrun] at hbuild
      cases hbuild
      refine ⟨hfits, ?_⟩
      have hwords : hufTreeSerialize ⟨built.tree, built.heap⟩ buf =
          (memcpy buf 0 (blockWords block)).map fun buf' => (buf', (blockWords block).length) :=
        hufTreeSerialize_built hbuilt buf
      rw [hserialize, memcpy] at hwords
      split at hwords
      · rw [Except.map, List.take_zero, List.nil_append] at hwords
        have hpair := Except.ok.inj hwords
        rw [Prod.mk.injEq] at hpair
        exact List.append_inj_left hpair.1 hpair.2
      · cases hwords
  · intro h
    rcases h with ⟨hfits, rfl⟩
    rcases hufTreeFromHistogram_eq (buildable_block hne hlen emptyHeap rfl) with
      ⟨-, hoverflows, -⟩ | ⟨-, built, hrun, hbuilt, -⟩
    · exact absurd hoverflows hfits
    · refine ⟨_, built, List.replicate (blockWords block).length 0, [], hpopulate, hrun, ?_⟩
      have hserialize : hufTreeSerialize ⟨built.tree, built.heap⟩
          (List.replicate (blockWords block).length 0) =
            (memcpy (List.replicate (blockWords block).length 0) 0 (blockWords block)).map
              fun buf' => (buf', (blockWords block).length) :=
        hufTreeSerialize_built hbuilt _
      rw [hserialize, memcpy_of_le (by rw [List.length_replicate, Nat.zero_add]), Except.map,
        List.take_zero, List.nil_append, Nat.zero_add,
        List.drop_of_length_le (List.length_replicate).le]

/-- A block fits if its tree is built and serialized to no more words than the
decoder accepts. -/
theorem fits_iff (hne : block ≠ []) (hlen : block.length < 2 ^ 64) :
    Fits block ↔ ∃ words, SerializesTo block words ∧ words.length ≤ hufBtreeLen := by
  apply Iff.intro
  · intro h
    rcases h with ⟨hfits, hwords⟩
    exact ⟨_, (serializesTo_iff hne hlen).mpr ⟨hfits, rfl⟩, hwords⟩
  · intro h
    rcases h with ⟨words, hserializes, hwords⟩
    obtain ⟨hfits, rfl⟩ := (serializesTo_iff hne hlen).mp hserializes
    exact ⟨hfits, hwords⟩

/-! ## The blocks of an encoded input -/

theorem indexByte_toNat (byte : UInt8) : indexByte (Int16.ofNat byte.toNat) = byte := by
  have hall : ∀ k < 256, indexByte (Int16.ofNat k) = UInt8.ofNat k := by decide +kernel
  rw [hall byte.toNat byte.toNat_lt, UInt8.ofNat_toNat]

/-- No index of a tree is the marker of an absent child. -/
theorem leafNode_not_mem_values (hne : block ≠ []) (hlen : block.length < 2 ^ 64) :
    hufLeafNode ∉ values ((hufTree (byteRates block)).map Int16.ofNat) := by
  have hvalues : ∀ tree : BinaryTree ℕ, values (tree.map Int16.ofNat) =
      (values tree).map Int16.ofNat := by
    intro tree
    induction tree with
    | nil => rfl
    | node a left right ihLeft ihRight =>
        simp [BinaryTree.map, ihLeft, ihRight, values]
  rw [hvalues, List.mem_map]
  intro h
  rcases h with ⟨k, hk, hleaf⟩
  have hcountable := countable_byteRates hne hlen
  have hcard := Forest.card_counted_le (byteRates block)
  have hascii : hufAsciiCount = 256 := rfl
  have hlt : k < 512 := by
    rcases hcountable.mem_values.mp hk with hbyte | hnode
    · have := (Forest.mem_counted.mp hbyte).1
      omega
    · omega
  have hmarker : ∀ k < 512, Int16.ofNat k ≠ hufLeafNode := by decide +kernel
  exact hmarker k hlt hleaf

/-- The codes of the bytes of a block are walks in its tree. -/
theorem walks_payloadBits {rates : List ℕ} (h : Forest.Countable rates) {block : List UInt8}
    (hblock : ∀ byte ∈ block, byte.toNat ∈ Forest.counted rates) :
    Walks ((hufTree rates).map Int16.ofNat) (payloadBits rates block)
      (block.map fun byte => Int16.ofNat byte.toNat) := by
  induction block with
  | nil => exact .nil
  | cons byte block ih =>
      have hbyte := hblock byte List.mem_cons_self
      exact .cons ((h.path_hufCode hbyte).map Int16.ofNat) (h.hufCode_ne_nil hbyte)
        (ih fun other hother => hblock other (List.mem_cons_of_mem _ hother))

/-- What the encoder writes for a block is a block of its bytes. -/
theorem block_encodedBlock (hne : block ≠ []) (hlen : block.length < 2 ^ 64)
    (hfits : Fits block) : Block (encodedBlock block) block := by
  have hcountable := countable_byteRates hne hlen
  have hwalks := walks_payloadBits hcountable
    fun byte (hbyte : byte ∈ block) => mem_counted_byteRates.mpr hbyte
  have hdenoted : denotedTree hufLeafNode (blockWords block) =
      (hufTree (byteRates block)).map Int16.ofNat :=
    denotedTree_preorder (leafNode_not_mem_values hne hlen)
  rw [← hdenoted] at hwalks
  have hcount : (block.map fun byte => Int16.ofNat byte.toNat).length < 2 ^ 64 := by
    rwa [List.length_map]
  have hblock := BlockOf.block hcount hfits.2 hwalks (fills_pack _)
  have hsymbols : (block.map fun byte => Int16.ofNat byte.toNat).map indexByte = block := by
    rw [List.map_map]
    exact (List.map_congr_left fun byte _ => indexByte_toNat byte).trans (List.map_id block)
  rw [hsymbols, List.length_map] at hblock
  exact hblock

theorem blocksOf_flatten (blocksize : ℕ) (data : List UInt8) :
    (blocksOf blocksize data).flatten = data := by
  by_cases hdata : data = []
  · rw [hdata, blocksOf, cut_nil]
    rfl
  · have := List.length_pos_iff.mpr hdata
    exact flatten_cut (by split <;> omega) data

/-- The blocks of an input are not empty, and no longer than the input. -/
theorem of_mem_blocksOf {blocksize : ℕ} {data : List UInt8} (h : block ∈ blocksOf blocksize data) :
    block ≠ [] ∧ block.length ≤ data.length := by
  by_cases hdata : data = []
  · rw [hdata, blocksOf, cut_nil] at h
    cases h
  · have hpos := List.length_pos_iff.mpr hdata
    have hsize : 0 < if blocksize = 0 then data.length else blocksize := by split <;> omega
    exact ⟨ne_nil_of_mem_cut hsize h, length_le_of_mem_cut hsize h⟩

/-- What the encoder writes is the blocks of its input. -/
theorem blocks_encoded {blocksize : ℕ} {data : List UInt8} (hlen : data.length < 2 ^ 64)
    (hfits : ∀ block ∈ blocksOf blocksize data, Fits block) :
    Blocks (encoded blocksize data) data := by
  have hblocks : ∀ pieces : List (List UInt8),
      (∀ block ∈ pieces, Block (encodedBlock block) block) →
      Blocks (pieces.flatMap encodedBlock) pieces.flatten := by
    intro pieces hpieces
    induction pieces with
    | nil => exact .nil
    | cons block pieces ih =>
        rw [List.flatMap_cons, List.flatten_cons]
        exact .cons (hpieces block List.mem_cons_self)
          (ih fun other hother => hpieces other (List.mem_cons_of_mem _ hother))
  have hall := hblocks (blocksOf blocksize data) fun block hblock => by
    obtain ⟨hne, hle⟩ := of_mem_blocksOf hblock
    exact block_encodedBlock hne (Nat.lt_of_le_of_lt hle hlen) (hfits block hblock)
  rw [blocksOf_flatten] at hall
  exact hall

end

end LibHuffman
