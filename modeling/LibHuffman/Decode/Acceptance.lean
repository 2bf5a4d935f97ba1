/-
# What the decoder accepts

The decoder reads blocks as `readBlocks` does, and `readBlocks` accepts the block
grammar. Together they say what `huf_decode` does with any input: which inputs it
accepts, with which output, which error it reports for the others, and on which
inputs it has no defined behaviour at all.
-/

import LibHuffman.Decode.Stream
import LibHuffman.Format.Grammar

namespace LibHuffman

open Foundation

variable {ρ ω : Type}

/-! ## Ideal streams -/

/-- The configuration of a decoder between two ideal streams. -/
def fifoConfig (length readerBufferSize writerBufferSize : ℕ) : HufConfig Fifo Fifo where
  length := length
  blocksize := 0
  readerBufferSize := readerBufferSize
  writerBufferSize := writerBufferSize
  reader := some Fifo.readWriter
  writer := some Fifo.readWriter

/-- Two ideal streams, of which the first holds the content. -/
def fifoWorld (content : List UInt8) : World Fifo Fifo where
  input := ⟨content, 0⟩
  output := Fifo.empty
  heap := ⟨fun _ => none, 0, []⟩

theorem hufDecode_fifo (content : List UInt8) (length readerBufferSize writerBufferSize : ℕ) :
    DecodeResult Fifo.source Fifo.sink (fifoWorld content)
      (hufDecode (some (fifoConfig length readerBufferSize writerBufferSize)) (fifoWorld content))
      (readBlocks length content) :=
  hufDecode_ends Fifo.source Fifo.sink _ _ rfl rfl rfl trivial

/-! ## Empty trees -/

/-- Behind some blocks, and before the declared length is used up, the input goes
on with a block that has symbols and an empty tree. -/
def ReachesEmptyTree (left : ℕ) (content : List UInt8) : Prop :=
  ∃ front symbols count words payload, content = front ++ (blockHeader count words ++ payload) ∧
    Blocks front symbols ∧ front.length < left ∧ 0 < count ∧ count < 2 ^ 64 ∧
    words.length ≤ hufBtreeLen ∧ denotedTree hufLeafNode words = .nil

/-- Every block with symbols that is reached has a tree. -/
def NonEmptyTrees (content : List UInt8) : Prop := ¬ ReachesEmptyTree content.length content

theorem ReachesTreeless.reachesEmptyTree {left : ℕ} {content : List UInt8}
    (h : ReachesTreeless left content) : ReachesEmptyTree left content := by
  obtain ⟨front, symbols, rest, rfl, hfront, hlt, count, words, payload, rfl, hpos, hcount, hwords,
    htree, -⟩ := h
  exact ⟨front, symbols, count, words, payload, rfl, hfront, hlt, hpos, hcount, hwords, htree⟩

/-- An empty tree that is not followed by a byte ends the input inside a block. -/
theorem ReachesEmptyTree.failed {left : ℕ} {content : List UInt8}
    (h : ReachesEmptyTree left content) (hend : ¬ ReachesTreeless left content) :
    readBlocks left content = .failed .readWrite := by
  rcases h with
    ⟨front, symbols, count, words, payload, rfl, hfront, hlt, hpos, hcount, hwords, htree⟩
  have hpayload : payload = [] := by
    by_contra hne
    exact hend ⟨front, symbols, _, rfl, hfront, hlt, count, words, payload, rfl, hpos, hcount,
      hwords, htree, hne⟩
  have hblock : readBlock (blockHeader count words ++ payload) = .failed .readWrite := by
    rw [readBlock_header hcount hwords, readPayload, if_neg (by omega), if_pos htree,
      if_pos hpayload]
  rw [readBlocks_append hfront (Nat.le_of_lt hlt), readBlocks_of_failed (by omega) hblock]
  rfl

/-- Blocks that are complete have the trees they need. -/
theorem nonEmptyTrees_of_blocks {content symbols : List UInt8} (h : Blocks content symbols) :
    NonEmptyTrees content := by
  intro hempty
  have hread := readBlocks_of_blocks h
  by_cases htreeless : ReachesTreeless content.length content
  · rw [readBlocks_crashed_iff.mpr htreeless] at hread
    cases hread
  · rw [hempty.failed htreeless] at hread
    cases hread

/-- What decoding any input should come to: the run ends with a code, and with
an error if it reaches a block that needs a tree and has none. -/
def DecodesSafely (left : ℕ) (content : List UInt8)
    (outcome : Outcome Fault HufError (World ρ ω) Unit) : Prop :=
  (∃ result world, outcome = .ok (result, world)) ∧
    (ReachesEmptyTree left content → ∃ code world, outcome = .ok (.error code, world))

/-- Decoding is safe exactly where no block with symbols and an empty tree is
followed by a byte. There the decoder steps from a null pointer before it checks
where the step led. -/
theorem hufDecode_safe_iff (src : Source ρ) (sink : Sink ω) (config : HufConfig ρ ω)
    (world : World ρ ω) (hreader : config.reader = some src.readWriter)
    (hwriter : config.writer = some sink.readWriter)
    (halloc : world.heap.allocations = []) (hvalid : src.valid world.input) :
    DecodesSafely config.length (src.remaining world.input) (hufDecode (some config) world) ↔
      ¬ ReachesTreeless config.length (src.remaining world.input) := by
  have hends := hufDecode_ends src sink config world hreader hwriter halloc hvalid
  apply Iff.intro
  · rintro ⟨⟨result, world', hrun⟩, -⟩ htreeless
    rw [readBlocks_crashed_iff.mpr htreeless, hrun] at hends
    cases hends
  · intro hsafe
    refine ⟨?_, fun hempty => ?_⟩
    · cases hread : readBlocks config.length (src.remaining world.input) with
      | complete symbols rest =>
          rw [hread] at hends
          rcases hends with ⟨world', hrun, -⟩
          exact ⟨_, world', hrun⟩
      | failed code =>
          rw [hread] at hends
          rcases hends with ⟨world', hrun⟩
          exact ⟨_, world', hrun⟩
      | crashed => exact absurd (readBlocks_crashed_iff.mp hread) hsafe
    · rw [hempty.failed hsafe] at hends
      exact ⟨_, hends⟩

/-- The condition at a decoder between ideal streams. -/
theorem hufDecode_safe_fifo :
    DecodesSafely 11 [1, 0, 0, 0, 0, 0, 0, 0, 0, 0, 0]
        (hufDecode (some (fifoConfig 11 4 4)) (fifoWorld [1, 0, 0, 0, 0, 0, 0, 0, 0, 0, 0])) ↔
      ¬ ReachesTreeless 11 [1, 0, 0, 0, 0, 0, 0, 0, 0, 0, 0] :=
  hufDecode_safe_iff Fifo.source Fifo.sink (fifoConfig 11 4 4)
    (fifoWorld [1, 0, 0, 0, 0, 0, 0, 0, 0, 0, 0]) rfl rfl rfl trivial

/-- One symbol, no tree and one more byte: a header is enough to make the decoder
follow a null pointer. -/
theorem hufDecode_not_safe :
    ¬ DecodesSafely 11 [1, 0, 0, 0, 0, 0, 0, 0, 0, 0, 0]
      (hufDecode (some (fifoConfig 11 4 4)) (fifoWorld [1, 0, 0, 0, 0, 0, 0, 0, 0, 0, 0])) := by
  intro h
  rcases h with ⟨⟨result, world, hrun⟩, -⟩
  have hread : readBlock [1, 0, 0, 0, 0, 0, 0, 0, 0, 0, 0] = .crashed := by decide
  have hends := hufDecode_fifo [1, 0, 0, 0, 0, 0, 0, 0, 0, 0, 0] 11 4 4
  rw [hrun, readBlocks_of_crashed (by decide) hread] at hends
  cases hends

/-! ## The grammar -/

/-- Walks that may take no step at all. In a tree that is a single node, the only
way from the root to a leaf is to stay. -/
inductive LooseWalks (tree : BinaryTree Int16) : List Bool → List Int16 → Prop
  | nil : LooseWalks tree [] []
  | cons {bits rest : List Bool} {a : Int16} {as : List Int16} :
      Path tree bits a → LooseWalks tree rest as → LooseWalks tree (bits ++ rest) (a :: as)

/-- Where every block with symbols has a tree, the decoder accepts the
concatenations of blocks, writes their symbols, and fails on every other input
with its first fault. -/
theorem hufDecode_accepts_blocks (src : Source ρ) (sink : Sink ω) (config : HufConfig ρ ω)
    (world : World ρ ω) (hreader : config.reader = some src.readWriter)
    (hwriter : config.writer = some sink.readWriter)
    (halloc : world.heap.allocations = []) (hvalid : src.valid world.input)
    (hlength : config.length = (src.remaining world.input).length)
    (htrees : NonEmptyTrees (src.remaining world.input)) :
    ((∃ world', hufDecode (some config) world = .ok (.ok (), world')) ↔
        ∃ symbols, Blocks (src.remaining world.input) symbols) ∧
      (∀ symbols world', Blocks (src.remaining world.input) symbols →
        hufDecode (some config) world = .ok (.ok (), world') →
        sink.content world'.output = sink.content world.output ++ symbols) ∧
      (∀ code, (∃ world', hufDecode (some config) world = .ok (.error code, world')) ↔
        FirstFault (src.remaining world.input) code) ∧
      ∃ result world', hufDecode (some config) world = .ok (result, world') := by
  have hends := hufDecode_ends src sink config world hreader hwriter halloc hvalid
  rw [hlength] at hends
  have hsafe : ¬ ReachesTreeless (src.remaining world.input).length (src.remaining world.input) :=
    fun htreeless => htrees htreeless.reachesEmptyTree
  have hfault := readBlocks_failed_iff hsafe
  have hcomplete := readBlocks_complete_iff (src.remaining world.input)
  cases hread : readBlocks (src.remaining world.input).length (src.remaining world.input) with
  | complete symbols rest =>
      rw [hread] at hends
      rcases hends with ⟨world', hrun, hcontent, -⟩
      obtain ⟨hblocks, -⟩ := (hcomplete symbols rest).mp hread
      refine ⟨⟨fun _ => ⟨symbols, hblocks⟩, fun _ => ⟨world', hrun⟩⟩, ?_, fun code => ?_,
        _, world', hrun⟩
      · intro symbols' world'' hblocks' hrun'
        rw [hrun] at hrun'
        cases hrun'
        rw [readBlocks_of_blocks hblocks'] at hread
        cases hread
        exact hcontent
      · apply Iff.intro
        · intro h
          rcases h with ⟨world'', hrun'⟩
          rw [hrun] at hrun'
          cases hrun'
        · intro hfirst
          rw [(hfault code).mpr hfirst] at hread
          cases hread
  | failed code =>
      rw [hread] at hends
      rcases hends with ⟨world', hrun⟩
      have hnot : ∀ symbols, ¬ Blocks (src.remaining world.input) symbols := by
        intro symbols hblocks
        rw [readBlocks_of_blocks hblocks] at hread
        cases hread
      refine ⟨⟨?_, fun ⟨symbols, hblocks⟩ => absurd hblocks (hnot symbols)⟩,
        fun symbols _ hblocks => absurd hblocks (hnot symbols), fun code' => ?_, _, world', hrun⟩
      · intro h
        rcases h with ⟨world'', hrun'⟩
        rw [hrun] at hrun'
        cases hrun'
      · rw [← hfault code', hread]
        apply Iff.intro
        · intro h
          rcases h with ⟨world'', hrun'⟩
          rw [hrun] at hrun'
          cases hrun'
          rfl
        · rintro ⟨⟩
          exact ⟨world', hrun⟩
  | crashed => exact absurd (readBlocks_crashed_iff.mp hread) hsafe

/-- A decoder between ideal streams accepts a block of one symbol. -/
theorem hufDecode_accepts_symbol :
    ∃ world, hufDecode (some (fifoConfig 21 4 4)) (fifoWorld
        [1, 0, 0, 0, 0, 0, 0, 0, 5, 0, 0, 1, 49, 0, 255, 255, 255, 255, 255, 255, 0]) =
          .ok (.ok (), world) ∧ world.output.stored = [49] := by
  have hblocks : Blocks [1, 0, 0, 0, 0, 0, 0, 0, 5, 0, 0, 1, 49, 0, 255, 255, 255, 255, 255, 255, 0]
      [49] := blocks_of_readBlock (by decide)
  obtain ⟨haccepts, hwrites, -⟩ := hufDecode_accepts_blocks Fifo.source Fifo.sink
    (fifoConfig 21 4 4) (fifoWorld
      [1, 0, 0, 0, 0, 0, 0, 0, 5, 0, 0, 1, 49, 0, 255, 255, 255, 255, 255, 255, 0])
    rfl rfl rfl trivial rfl (nonEmptyTrees_of_blocks hblocks)
  obtain ⟨world, hrun⟩ := haccepts.mpr ⟨[49], hblocks⟩
  exact ⟨world, hrun, hwrites [49] world hblocks hrun⟩

/-- The code of a one-leaf tree is never used: a block that stores its symbol in
no bits is what the decoder fails to accept. -/
theorem hufDecode_rejects_single_leaf :
    NonEmptyTrees [1, 0, 0, 0, 0, 0, 0, 0, 3, 0, 5, 0, 255, 255, 255, 255] ∧
      BlocksOf LooseWalks [1, 0, 0, 0, 0, 0, 0, 0, 3, 0, 5, 0, 255, 255, 255, 255] [5] ∧
      ¬ ∃ world, hufDecode (some (fifoConfig 16 4 4))
        (fifoWorld [1, 0, 0, 0, 0, 0, 0, 0, 3, 0, 5, 0, 255, 255, 255, 255]) =
          .ok (.ok (), world) := by
  have hread : readBlock [1, 0, 0, 0, 0, 0, 0, 0, 3, 0, 5, 0, 255, 255, 255, 255] =
      .failed .readWrite := by decide
  refine ⟨?_, ?_, ?_⟩
  · intro h
    rcases h with ⟨front, symbols, count, words, payload, hcontent, hfront, -, -, -, hwords, htree⟩
    cases hfront with
    | nil =>
        have hwordsEq := treeWords_header count hwords payload
        rw [List.nil_append] at hcontent
        rw [← hcontent] at hwordsEq
        rw [← hwordsEq] at htree
        exact absurd htree (by decide)
    | cons hblock _ =>
        rw [List.append_assoc] at hcontent
        rw [readBlock_complete_iff.mpr ⟨_, hcontent, hblock⟩] at hread
        cases hread
  · have htree : denotedTree hufLeafNode [5, -1, -1] = .node 5 .nil .nil := by decide
    have hwalks : LooseWalks (denotedTree hufLeafNode [5, -1, -1]) [] [5] := by
      rw [htree]
      exact .cons (.leaf 5) .nil
    have hblock := BlockOf.block (show [5].length < 2 ^ 64 by decide) (by decide) hwalks
      (fills_nil_iff.mpr rfl)
    exact .cons hblock .nil
  · intro h
    rcases h with ⟨world, hrun⟩
    have hends := hufDecode_fifo [1, 0, 0, 0, 0, 0, 0, 0, 3, 0, 5, 0, 255, 255, 255, 255] 16 4 4
    rw [hrun, readBlocks_of_failed (by decide) hread] at hends
    rcases hends with ⟨world', hrun'⟩
    cases hrun'

end LibHuffman
