/-
# Bytes behind the declared length

`huf_decode` compares its declared length with the bytes it has read between two
blocks only. A block that begins before the end of that length is decoded to its
own end, with whatever bytes follow. The bytes behind the declared length have no
influence exactly if decoding comes to an end before it asks for any of them: with
complete blocks, or with a fault that is not the end of the input.
-/

import LibHuffman.Decode.Acceptance
import LibHuffman.Decode.Extension

namespace LibHuffman

open Foundation

/-- With the length of the content declared, `huf_decode` returns the same code and
writes the same output from every source that begins with the content, through
reader buffers of any size. -/
def IgnoresBeyond (content : List UInt8) : Prop :=
  ∀ (ω : Type) (sink : Sink ω) (output : ω) (heap : Heap) (blocksize writerBufferSize : ℕ),
    heap.allocations = [] → ∃ result written,
      ∀ (ρ : Type) (src : Source ρ) (input : ρ) (readerBufferSize : ℕ),
        src.valid input → content <+: src.remaining input →
        ∃ world, hufDecode (some ⟨content.length, blocksize, readerBufferSize, writerBufferSize,
            some src.readWriter, some sink.readWriter⟩) ⟨input, output, heap⟩ =
              .ok (result, world) ∧
          sink.content world.output = written

/-- The content consists of complete blocks, or behind complete blocks it has a tree
length out of range or a step to an absent child, where every tree that is needed
is there. -/
def Decided (content : List UInt8) : Prop :=
  (∃ symbols, Blocks content symbols) ∨
    ¬ ReachesTreeless content.length content ∧
      (FirstFault content .btreeOverflow ∨ FirstFault content .btreeCorrupted)

/-! ## What reading the content alone comes to -/

section

variable {content : List UInt8}

theorem Decided.readBlocks (h : Decided content) :
    (∃ symbols, readBlocks content.length content = .complete symbols []) ∨
      ∃ code, code ≠ .readWrite ∧ readBlocks content.length content = .failed code := by
  rcases h with ⟨symbols, hblocks⟩ | ⟨htrees, hfault | hfault⟩
  · exact Or.inl ⟨symbols, readBlocks_of_blocks hblocks⟩
  · exact Or.inr ⟨_, HufError.noConfusion, (readBlocks_failed_iff htrees _).mpr hfault⟩
  · exact Or.inr ⟨_, HufError.noConfusion, (readBlocks_failed_iff htrees _).mpr hfault⟩

/-- A fault of a block is one of three. -/
theorem BlockFault.code_cases {rest : List UInt8} {code : HufError} (h : BlockFault rest code) :
    code = .readWrite ∨ code = .btreeOverflow ∨ code = .btreeCorrupted := by
  cases h with
  | header => exact Or.inl rfl
  | range => exact Or.inr (Or.inl rfl)
  | words => exact Or.inl rfl
  | astray => exact Or.inr (Or.inr rfl)
  | starved => exact Or.inl rfl

/-- Otherwise the content ends inside a block, or a block that is reached needs a tree
and has none. -/
theorem readBlocks_of_not_decided (h : ¬ Decided content) :
    readBlocks content.length content = .failed .readWrite ∨
      readBlocks content.length content = .crashed := by
  cases hread : readBlocks content.length content with
  | complete symbols rest =>
      have hblocks := ((readBlocks_complete_iff content symbols rest).mp hread).1
      exact absurd (Or.inl ⟨symbols, hblocks⟩) h
  | crashed => exact Or.inr rfl
  | failed code =>
      have htrees : ¬ ReachesTreeless content.length content := by
        intro htreeless
        rw [readBlocks_crashed_iff.mpr htreeless] at hread
        cases hread
      have hfault := (readBlocks_failed_iff htrees code).mp hread
      rcases hfault with ⟨front, symbols, rest, hcontent, hfront, hrest, hblock⟩
      rcases hblock.code_cases with rfl | rfl | rfl
      · exact Or.inl rfl
      · exact absurd (Or.inr ⟨htrees, Or.inl
          ⟨front, symbols, rest, hcontent, hfront, hrest, hblock⟩⟩) h
      · exact absurd (Or.inr ⟨htrees, Or.inr
          ⟨front, symbols, rest, hcontent, hfront, hrest, hblock⟩⟩) h

end

/-! ## Bytes that keep a block from ending early -/

/-- As many bytes as any block takes, and one more. -/
def longestBlock : ℕ := 10 + 2 * hufBtreeLen + 2 ^ 64 * (hufBtreeLen + 1) + hufBtreeLen + 1

section

variable {content tail : List UInt8}

/-- A scan does not run out of that many bytes. -/
theorem scanBytes_not_pending {tree : BinaryTree Int16} {count : ℕ} {bytes : List UInt8}
    {symbols : List Int16} {need : ℕ} {cur : BinaryTree Int16} (hcount : count < 2 ^ 64)
    (hheight : tree.height ≤ hufBtreeLen)
    (hbytes : 2 ^ 64 * (hufBtreeLen + 1) + hufBtreeLen < bytes.length) :
    scanBytes tree tree count bytes ≠ .pending symbols need cur := by
  intro hpending
  rw [scanBytes_eq] at hpending
  cases hscan : scan tree tree count (bytesBits bytes) with
  | finished found unused => rw [hscan] at hpending; cases hpending
  | stuck found => rw [hscan] at hpending; cases hpending
  | pending found need' cur' =>
      have hprogress := (scan_progress hscan).2
      have hmul : count * (tree.height + 1) ≤ 2 ^ 64 * (hufBtreeLen + 1) :=
        Nat.mul_le_mul (Nat.le_of_lt hcount) (by omega)
      rw [length_bytesBits] at hprogress
      omega

/-- A block that is followed by enough bytes does not end early. -/
theorem readBlock_of_long (htail : longestBlock ≤ tail.length) :
    readBlock (content ++ tail) ≠ .failed .readWrite := by
  have hlong : longestBlock = 10 + 2 * hufBtreeLen + 2 ^ 64 * (hufBtreeLen + 1) + hufBtreeLen + 1 :=
    rfl
  have hlen : (content ++ tail).length = content.length + tail.length := List.length_append
  intro hread
  rw [readBlock] at hread
  generalize hlength : (bytesWord (((content ++ tail).drop 8).take 2)).toInt = treeLength at hread
  rw [if_neg (by omega)] at hread
  split at hread
  · cases hread
  rename_i hrange
  have hwords : treeLength.toNat ≤ hufBtreeLen := by omega
  rw [if_neg (by omega)] at hread
  have hpayload : 2 ^ 64 * (hufBtreeLen + 1) + hufBtreeLen <
      ((content ++ tail).drop (10 + 2 * treeLength.toNat)).length := by
    rw [List.length_drop]
    omega
  have hcount : leNat ((content ++ tail).take 8) < 2 ^ 64 := by
    have hlt := leNat_lt ((content ++ tail).take 8)
    rw [List.length_take, Nat.min_eq_left (by omega)] at hlt
    exact hlt
  rw [readPayload] at hread
  split at hread
  · cases hread
  split at hread
  · split at hread
    · rename_i hnil
      rw [hnil, List.length_nil] at hpayload
      omega
    · cases hread
  · generalize htree : denotedTree hufLeafNode (bytesWords treeLength.toNat
      (((content ++ tail).drop 10).take (2 * treeLength.toNat))) = tree at hread
    have hheight : tree.height ≤ hufBtreeLen := by
      have hnodes := numNodes_denotedTree_le hufLeafNode (bytesWords treeLength.toNat
        (((content ++ tail).drop 10).take (2 * treeLength.toNat)))
      rw [htree, length_bytesWords] at hnodes
      exact Nat.le_trans tree.height_le_numNodes (Nat.le_trans hnodes hwords)
    generalize hscan : scanBytes tree tree _ _ = scanned at hread
    cases scanned with
    | finished found rest => cases hread
    | stuck found => cases hread
    | pending found need cur => exact scanBytes_not_pending hcount hheight hpayload hscan

/-- Where the content alone ends inside a block, more bytes complete this block or
show a fault in it. -/
theorem readBlocks_of_long (htail : longestBlock ≤ tail.length)
    (hread : readBlocks content.length content = .failed .readWrite) :
    readBlocks content.length (content ++ tail) ≠ .failed .readWrite := by
  obtain ⟨front, symbols, rest, rfl, hfront, ⟨-, hends⟩ | ⟨hlt, -, hends⟩ | ⟨-, -, hends⟩⟩ :=
    readBlocks_cases content.length content
  · rw [hread] at hends
    cases hends
  · have hrest : readBlock rest = .failed .readWrite := by rw [← hends, hread]
    rw [List.append_assoc, readBlocks_append hfront (Nat.le_of_lt hlt)]
    have hleft : (front ++ rest).length - front.length ≠ 0 := Nat.sub_ne_zero_of_lt hlt
    cases hblock : readBlock (rest ++ tail) with
    | failed code =>
        rw [readBlocks_of_failed hleft hblock]
        intro hfailed
        cases hfailed
        exact readBlock_of_long htail hblock
    | crashed =>
        rw [readBlocks_of_crashed hleft hblock]
        exact ReadEnd.noConfusion
    | complete later after =>
        -- the block goes on behind the content, so that the declared length is used up
        obtain ⟨block, hsplit, hblock'⟩ := readBlock_complete_iff.mp hblock
        have hlonger : rest.length ≤ block.length := by
          by_contra hshorter
          obtain ⟨unused, rfl⟩ : block <+: rest :=
            List.prefix_of_prefix_length_le ⟨after, hsplit.symm⟩ ⟨tail, rfl⟩
              (Nat.le_of_not_le hshorter)
          rw [readBlock_complete_iff.mpr ⟨block, rfl, hblock'⟩] at hrest
          cases hrest
        have htotal := congrArg List.length hsplit
        simp only [List.length_append] at htotal hleft ⊢
        have hnone : front.length + rest.length - front.length -
            (rest.length + tail.length - after.length) = 0 := by omega
        rw [readBlocks_of_complete hleft hblock, List.length_append, hnone, readBlocks_zero]
        exact ReadEnd.noConfusion
  · rw [hread] at hends
    cases hends

end

/-! ## The bytes behind the declared length -/

/-- The bytes behind the declared length have no influence if and only if the bytes
before its end decide how decoding ends. -/
theorem ignoresBeyond_iff (content : List UInt8) : IgnoresBeyond content ↔ Decided content := by
  apply Iff.intro
  · intro hignores
    by_contra hundecided
    obtain ⟨result, written, hruns⟩ := hignores Fifo Fifo.sink Fifo.empty ⟨fun _ => none, 0, []⟩
      0 0 rfl
    have hrun : ∀ tail, ∃ world, DecodeResult Fifo.source Fifo.sink (fifoWorld (content ++ tail))
        (.ok (result, world)) (readBlocks content.length (content ++ tail)) := by
      intro tail
      obtain ⟨world, hrun, -⟩ := hruns Fifo Fifo.source ⟨content ++ tail, 0⟩ 0 trivial ⟨tail, rfl⟩
      have hends := hufDecode_fifo (content ++ tail) content.length 0 0
      exact ⟨world, hrun ▸ hends⟩
    obtain ⟨world, hends⟩ := hrun []
    rw [List.append_nil] at hends
    rcases readBlocks_of_not_decided hundecided with hread | hread
    · -- the content alone ends inside a block, but not with more bytes behind it
      rw [hread] at hends
      rcases hends with ⟨world', hfailed⟩
      cases hfailed
      obtain ⟨world, hends⟩ := hrun (List.replicate longestBlock 255)
      have hlong := readBlocks_of_long
        (Nat.le_of_eq (List.length_replicate (n := longestBlock) (a := (255 : UInt8))).symm) hread
      generalize readBlocks content.length
        (content ++ List.replicate longestBlock 255) = readEnd at hends hlong
      cases readEnd with
      | complete symbols rest =>
          rcases hends with ⟨world', hcomplete, -⟩
          cases hcomplete
      | failed code =>
          rcases hends with ⟨world', hfailed⟩
          cases hfailed
          exact hlong rfl
      | crashed => cases hends
    · rw [hread] at hends
      cases hends
  · intro hdecided ω sink output heap blocksize writerBufferSize halloc
    -- the run on the content alone, which all others extend
    have hends := hufDecode_ends Fifo.source sink
      ⟨content.length, blocksize, 0, writerBufferSize, some Fifo.readWriter, some sink.readWriter⟩
      ⟨⟨content, 0⟩, output, heap⟩ rfl rfl halloc trivial
    obtain ⟨result, world, hrun, hresult⟩ : ∃ result world,
        hufDecode (some ⟨content.length, blocksize, 0, writerBufferSize, some Fifo.readWriter,
          some sink.readWriter⟩) ⟨⟨content, 0⟩, output, heap⟩ = .ok (result, world) ∧
        result ≠ .error .readWrite := by
      rcases hdecided.readBlocks with ⟨symbols, hread⟩ | ⟨code, hcode, hread⟩
      · have hread' : readBlocks content.length (Fifo.source.remaining ⟨content, 0⟩) = _ := hread
        rw [hread'] at hends
        rcases hends with ⟨world, hrun, -⟩
        exact ⟨_, world, hrun, fun h => nomatch h⟩
      · have hread' : readBlocks content.length (Fifo.source.remaining ⟨content, 0⟩) = _ := hread
        rw [hread'] at hends
        rcases hends with ⟨world, hrun⟩
        exact ⟨_, world, hrun, fun h => hcode (Except.error.inj h)⟩
    refine ⟨result, sink.content world.output, ?_⟩
    intro ρ src input readerBufferSize hvalid hpre
    have hpre' : Fifo.source.remaining ⟨content, 0⟩ <+: src.remaining input := hpre
    obtain ⟨world', hrun', houtput⟩ := hufDecode_extends Fifo.source src halloc trivial hvalid
      hpre' hrun hresult
    exact ⟨world', hrun', congrArg sink.content houtput⟩

/-- One zero byte with a declared length of one: alone it is an incomplete header, and
nine more zero bytes make it a block. -/
theorem not_ignoresBeyond : ¬ IgnoresBeyond [0] := by
  intro h
  obtain ⟨result, written, hruns⟩ := h Fifo Fifo.sink Fifo.empty ⟨fun _ => none, 0, []⟩ 0 0 rfl
  obtain ⟨world, halone, -⟩ := hruns Fifo Fifo.source ⟨[0], 0⟩ 0 trivial ⟨[], rfl⟩
  obtain ⟨world', hlonger, -⟩ := hruns Fifo Fifo.source ⟨[0, 0, 0, 0, 0, 0, 0, 0, 0, 0], 0⟩ 0
    trivial ⟨[0, 0, 0, 0, 0, 0, 0, 0, 0], rfl⟩
  have hfailed : readBlock [0] = .failed .readWrite := by decide
  have hcomplete : readBlock [0, 0, 0, 0, 0, 0, 0, 0, 0, 0] = .complete [] [] := by decide
  have hends := hufDecode_fifo [0] 1 0 0
  have hends' := hufDecode_fifo [0, 0, 0, 0, 0, 0, 0, 0, 0, 0] 1 0 0
  rw [readBlocks_of_failed Nat.one_ne_zero hfailed] at hends
  rw [readBlocks_of_complete Nat.one_ne_zero hcomplete, Nat.sub_eq_zero_of_le (by decide),
    readBlocks_zero] at hends'
  rcases hends with ⟨_, hrun⟩
  rcases hends' with ⟨_, hrun', -⟩
  cases halone.symm.trans hrun
  cases hlonger.symm.trans hrun'

end LibHuffman
