/-
# The block grammar

What an encoded input is, without saying how to read it: a concatenation of
blocks, each of a symbol count, a tree and the least number of whole bytes that
hold the walks in the tree. What makes an input no concatenation of blocks is its
first fault. `readBlocks` accepts exactly the grammar, fails with the first fault,
and crashes exactly where a block with symbols has an empty tree and further
bytes.
-/

import LibHuffman.Format.Blocks

namespace LibHuffman

open Foundation

/-! ## Blocks -/

/-- The symbol count and the length of the tree. -/
def blockHead (count : ℕ) (treeLength : Int16) : List UInt8 :=
  leBytes 8 count ++ wordBytes treeLength

/-- The header of a block with the words of its tree. -/
def blockHeader (count : ℕ) (words : List Int16) : List UInt8 :=
  blockHead count (Int16.ofNat words.length) ++ wordsBytes words

/-- The bytes are one block of these symbols, where the bits of the payload are
`walks` in the tree. -/
inductive BlockOf (walks : BinaryTree Int16 → List Bool → List Int16 → Prop) :
    List UInt8 → List UInt8 → Prop
  | block {words : List Int16} {walked : List Bool} {indices : List Int16} {payload : List UInt8}
      (hcount : indices.length < 2 ^ 64) (hwords : words.length ≤ hufBtreeLen)
      (hwalks : walks (denotedTree hufLeafNode words) walked indices)
      (hfills : Fills walked payload) :
      BlockOf walks (blockHeader indices.length words ++ payload) (indices.map indexByte)

/-- The bytes are blocks one after the other. -/
inductive BlocksOf (walks : BinaryTree Int16 → List Bool → List Int16 → Prop) :
    List UInt8 → List UInt8 → Prop
  | nil : BlocksOf walks [] []
  | cons {block symbols rest later : List UInt8} (hblock : BlockOf walks block symbols)
      (hrest : BlocksOf walks rest later) : BlocksOf walks (block ++ rest) (symbols ++ later)

theorem BlocksOf.append {walks : BinaryTree Int16 → List Bool → List Int16 → Prop}
    {front symbols rest later : List UInt8} (hfront : BlocksOf walks front symbols)
    (hrest : BlocksOf walks rest later) : BlocksOf walks (front ++ rest) (symbols ++ later) := by
  induction hfront with
  | nil => exact hrest
  | cons hblock _ ih =>
      rw [List.append_assoc, List.append_assoc]
      exact .cons hblock ih

/-- One block of symbols, each the leaf of a walk of at least one step. -/
abbrev Block : List UInt8 → List UInt8 → Prop := BlockOf Walks

/-- Blocks of symbols. -/
abbrev Blocks : List UInt8 → List UInt8 → Prop := BlocksOf Walks

/-! ## Faults -/

/-- The input starts with something that is not a block, and what is wrong
first. -/
inductive BlockFault : List UInt8 → HufError → Prop
  /-- The input ends inside the header. -/
  | header {content : List UInt8} (hshort : content.length < 10) : BlockFault content .readWrite
  /-- The length of the tree is out of range. -/
  | range {count : ℕ} {treeLength : Int16} {rest : List UInt8} (hcount : count < 2 ^ 64)
      (hrange : treeLength.toInt < 0 ∨ treeLength.toInt > hufBtreeLen) :
      BlockFault (blockHead count treeLength ++ rest) .btreeOverflow
  /-- The input ends inside the tree. -/
  | words {count : ℕ} {treeLength : Int16} {rest : List UInt8} (hcount : count < 2 ^ 64)
      (hrange : ¬ (treeLength.toInt < 0 ∨ treeLength.toInt > hufBtreeLen))
      (hshort : rest.length < 2 * treeLength.toInt.toNat) :
      BlockFault (blockHead count treeLength ++ rest) .readWrite
  /-- A step leads to an absent child. -/
  | astray {count : ℕ} {words indices : List Int16} {rest : List UInt8} (hcount : count < 2 ^ 64)
      (hwords : words.length ≤ hufBtreeLen)
      (hstrays : Strays (denotedTree hufLeafNode words) count (bytesBits rest) indices) :
      BlockFault (blockHeader count words ++ rest) .btreeCorrupted
  /-- The input ends inside the payload. -/
  | starved {count : ℕ} {words indices : List Int16} {rest : List UInt8} (hcount : count < 2 ^ 64)
      (hwords : words.length ≤ hufBtreeLen)
      (hstarves : Starves (denotedTree hufLeafNode words) count (bytesBits rest) indices) :
      BlockFault (blockHeader count words ++ rest) .readWrite

/-- Behind some blocks the input goes on with a fault. -/
def FirstFault (content : List UInt8) (code : HufError) : Prop :=
  ∃ front symbols rest, content = front ++ rest ∧ Blocks front symbols ∧ rest ≠ [] ∧
    BlockFault rest code

/-- The input starts with the header of a block that has symbols, an empty tree
and at least one more byte. -/
def TreelessBlock (content : List UInt8) : Prop :=
  ∃ count words payload, content = blockHeader count words ++ payload ∧
    0 < count ∧ count < 2 ^ 64 ∧ words.length ≤ hufBtreeLen ∧
    denotedTree hufLeafNode words = .nil ∧ payload ≠ []

/-! ## Reading one block -/

section

variable {count : ℕ} {treeLength : Int16} {words : List Int16} {content rest : List UInt8}

@[simp] theorem length_blockHead (count : ℕ) (treeLength : Int16) :
    (blockHead count treeLength).length = 10 := by
  simp [blockHead]

theorem blockHead_eq {content : List UInt8} (h : 10 ≤ content.length) :
    ∃ count treeLength rest, count < 2 ^ 64 ∧ content = blockHead count treeLength ++ rest := by
  have hcount : (content.take 8).length = 8 := by
    simp only [List.length_take]
    omega
  have hlength : ((content.drop 8).take 2).length = 2 := by
    simp only [List.length_take, List.length_drop]
    omega
  refine ⟨leNat (content.take 8), bytesWord ((content.drop 8).take 2), content.drop 10, ?_, ?_⟩
  · have := leNat_lt (content.take 8)
    rw [hcount] at this
    exact this
  · have hbytes := leBytes_leNat (content.take 8)
    rw [hcount] at hbytes
    have hdrop : content.drop 10 = (content.drop 8).drop 2 := by
      simp
    rw [blockHead, hbytes, wordBytes_bytesWord hlength, List.append_assoc, hdrop,
      List.take_append_drop, List.take_append_drop]

theorem readBlock_short (h : content.length < 10) : readBlock content = .failed .readWrite := by
  rw [readBlock, if_pos h]

/-- Reading a block whose header is complete. -/
theorem readBlock_head (hcount : count < 2 ^ 64) (treeLength : Int16) (rest : List UInt8) :
    readBlock (blockHead count treeLength ++ rest) =
      if treeLength.toInt < 0 ∨ treeLength.toInt > hufBtreeLen then .failed .btreeOverflow
      else if rest.length < 2 * treeLength.toInt.toNat then .failed .readWrite
      else
        readPayload (denotedTree hufLeafNode (bytesWords treeLength.toInt.toNat
          (rest.take (2 * treeLength.toInt.toNat)))) count
          (rest.drop (2 * treeLength.toInt.toNat)) := by
  have htake : (blockHead count treeLength ++ rest).take 8 = leBytes 8 count := by
    rw [blockHead, List.append_assoc]
    exact List.take_left' (length_leBytes 8 count)
  have hword : ((blockHead count treeLength ++ rest).drop 8).take 2 = wordBytes treeLength := by
    rw [blockHead, List.append_assoc, List.drop_left' (length_leBytes 8 count)]
    exact List.take_left' (length_wordBytes treeLength)
  have hdrop : (blockHead count treeLength ++ rest).drop 10 = rest :=
    List.drop_left' (length_blockHead count treeLength)
  have hlen : (blockHead count treeLength ++ rest).length = 10 + rest.length := by
    simp
  rw [readBlock, if_neg (by simp only [hlen]; omega), hword, bytesWord_wordBytes, htake,
    leNat_leBytes (by exact hcount), hdrop, ← List.drop_drop, hdrop, hlen]
  simp only [Nat.add_lt_add_iff_left]

theorem toInt_ofNat_length (h : words.length ≤ hufBtreeLen) :
    (Int16.ofNat words.length).toInt = words.length := by
  have hbound : words.length < 2 ^ 15 := Nat.lt_of_le_of_lt h (by decide)
  exact Int16.toInt_ofNat_of_lt hbound

/-- Reading a block whose tree is complete. -/
theorem readBlock_header (hcount : count < 2 ^ 64) (hwords : words.length ≤ hufBtreeLen)
    (payload : List UInt8) :
    readBlock (blockHeader count words ++ payload) =
      readPayload (denotedTree hufLeafNode words) count payload := by
  have hlen : (Int16.ofNat words.length).toInt.toNat = words.length := by
    rw [toInt_ofNat_length hwords, Int.toNat_natCast]
  have hbytes : (wordsBytes words).length = 2 * words.length := length_wordsBytes words
  rw [blockHeader, List.append_assoc, readBlock_head hcount, if_neg, if_neg, hlen,
    List.take_left' hbytes, List.drop_left' hbytes, bytesWords_wordsBytes]
  · simp only [hlen, List.length_append, hbytes]
    omega
  · rw [toInt_ofNat_length hwords]
    omega

/-- The words of the tree of the first block. -/
def treeWords (content : List UInt8) : List Int16 :=
  let len := (bytesWord ((content.drop 8).take 2)).toInt.toNat
  bytesWords len ((content.drop 10).take (2 * len))

theorem treeWords_header (count : ℕ) (hwords : words.length ≤ hufBtreeLen)
    (payload : List UInt8) : treeWords (blockHeader count words ++ payload) = words := by
  have hlen : (Int16.ofNat words.length).toInt.toNat = words.length := by
    rw [toInt_ofNat_length hwords, Int.toNat_natCast]
  have hword : ((blockHeader count words ++ payload).drop 8).take 2 =
      wordBytes (Int16.ofNat words.length) := by
    rw [blockHeader, blockHead, List.append_assoc, List.append_assoc,
      List.drop_left' (length_leBytes 8 count)]
    exact List.take_left' (length_wordBytes _)
  have hdrop : (blockHeader count words ++ payload).drop 10 = wordsBytes words ++ payload := by
    rw [blockHeader, List.append_assoc]
    exact List.drop_left' (length_blockHead _ _)
  rw [treeWords, hword, bytesWord_wordBytes, hlen, hdrop,
    List.take_left' (length_wordsBytes words), bytesWords_wordsBytes]

/-- An input ends inside the header, has a length out of range, ends inside the
tree, or starts with a header and a tree. -/
theorem header_cases (content : List UInt8) :
    content.length < 10 ∨
      (∃ count treeLength rest, count < 2 ^ 64 ∧ content = blockHead count treeLength ++ rest ∧
        (treeLength.toInt < 0 ∨ treeLength.toInt > hufBtreeLen)) ∨
      (∃ count treeLength rest, count < 2 ^ 64 ∧ content = blockHead count treeLength ++ rest ∧
        ¬ (treeLength.toInt < 0 ∨ treeLength.toInt > hufBtreeLen) ∧
        rest.length < 2 * treeLength.toInt.toNat) ∨
      ∃ count words payload, count < 2 ^ 64 ∧ words.length ≤ hufBtreeLen ∧
        content = blockHeader count words ++ payload := by
  by_cases hshort : content.length < 10
  · exact Or.inl hshort
  obtain ⟨count, treeLength, rest, hcount, rfl⟩ := blockHead_eq (Nat.le_of_not_lt hshort)
  by_cases hrange : treeLength.toInt < 0 ∨ treeLength.toInt > hufBtreeLen
  · exact Or.inr (Or.inl ⟨count, treeLength, rest, hcount, rfl, hrange⟩)
  by_cases hwords : rest.length < 2 * treeLength.toInt.toNat
  · exact Or.inr (Or.inr (Or.inl ⟨count, treeLength, rest, hcount, rfl, hrange, hwords⟩))
  refine Or.inr (Or.inr (Or.inr ⟨count,
    bytesWords treeLength.toInt.toNat (rest.take (2 * treeLength.toInt.toNat)),
    rest.drop (2 * treeLength.toInt.toNat), hcount, ?_, ?_⟩))
  · rw [length_bytesWords]
    omega
  · have htreeLength : Int16.ofNat treeLength.toInt.toNat = treeLength := by
      have hbound : hufBtreeLen = 1024 := rfl
      apply Int16.toInt_inj.mp
      rw [Int16.toInt_ofNat_of_lt (by omega)]
      omega
    have htake : (rest.take (2 * treeLength.toInt.toNat)).length =
        2 * treeLength.toInt.toNat := by
      simp only [List.length_take]
      omega
    rw [blockHeader, length_bytesWords, htreeLength, wordsBytes_bytesWords htake,
      List.append_assoc, List.take_append_drop]

end

/-! ## Reading a payload -/

theorem fills_nil_iff {payload : List UInt8} : Fills [] payload ↔ payload = [] := by
  apply Iff.intro
  · intro h
    by_contra hne
    exact absurd (h.2 0 (List.length_pos_iff.mpr hne)) (Nat.lt_irrefl 0)
  · rintro rfl
    exact ⟨List.nil_prefix, fun fewer hfewer => absurd hfewer (Nat.not_lt_zero _)⟩

theorem walks_empty_tree {walked : List Bool} {indices : List Int16}
    (h : Walks (.nil : BinaryTree Int16) walked indices) : walked = [] ∧ indices = [] := by
  cases h with
  | nil => exact ⟨rfl, rfl⟩
  | cons hpath => cases hpath

section

variable {tree : BinaryTree Int16} {count : ℕ} {content symbols rest : List UInt8}

/-- A payload is complete where the input starts with its walks. -/
theorem readPayload_complete_iff :
    readPayload tree count content = .complete symbols rest ↔
      ∃ payload walked indices, content = payload ++ rest ∧ Fills walked payload ∧
        Walks tree walked indices ∧ indices.length = count ∧
        symbols = indices.map indexByte := by
  rw [readPayload]
  by_cases hcount : count = 0
  · rw [if_pos hcount]
    apply Iff.intro
    · rintro ⟨⟩
      exact ⟨[], [], [], rfl, fills_nil_iff.mpr rfl, .nil, hcount.symm, rfl⟩
    · intro h'
      rcases h' with ⟨payload, walked, indices, rfl, hfills, hwalks, hlen, rfl⟩
      obtain rfl : indices = [] := List.length_eq_zero_iff.mp (hlen.trans hcount)
      cases hwalks
      rw [fills_nil_iff.mp hfills]
      rfl
  rw [if_neg hcount]
  by_cases htree : tree = .nil
  · rw [if_pos htree]
    apply Iff.intro
    · intro h
      split at h <;> cases h
    · intro h'
      rcases h' with ⟨payload, walked, indices, -, -, hwalks, hlen, -⟩
      rw [htree] at hwalks
      rw [(walks_empty_tree hwalks).2] at hlen
      exact absurd hlen.symm hcount
  rw [if_neg htree]
  apply Iff.intro
  · intro h
    cases hscan : scanBytes tree tree count content with
    | finished indices rest' =>
        rw [hscan] at h
        obtain ⟨payload, walked, hcontent, hfills, hwalks, hlen⟩ := scanBytes_finished_iff.mp hscan
        injection h with hsymbols hrest
        exact ⟨payload, walked, indices, hrest ▸ hcontent, hfills, hwalks, hlen, hsymbols.symm⟩
    | stuck indices => rw [hscan] at h; cases h
    | pending indices need cur => rw [hscan] at h; cases h
  · intro h'
    rcases h' with ⟨payload, walked, indices, hcontent, hfills, hwalks, hlen, rfl⟩
    rw [scanBytes_finished_iff.mpr ⟨payload, walked, hcontent, hfills, hwalks, hlen⟩]
    rfl

/-- A payload fails where the tree is there and the bits of the input stray or
starve, or where there are neither a tree nor bits. -/
theorem readPayload_failed_iff {code : HufError}
    (hcrash : readPayload tree count content ≠ .crashed) :
    readPayload tree count content = .failed code ↔
      (code = .btreeCorrupted ∧ ∃ indices, Strays tree count (bytesBits content) indices) ∨
        code = .readWrite ∧ ∃ indices, Starves tree count (bytesBits content) indices := by
  rw [readPayload] at hcrash ⊢
  by_cases hcount : count = 0
  · rw [if_pos hcount]
    apply Iff.intro
    · intro h
      cases h
    · rintro (⟨-, indices, _, _, _, _, _, -, -, hlt, -⟩ | ⟨-, indices, _, _, _, -, -, hlt, -⟩)
      · omega
      · omega
  rw [if_neg hcount] at hcrash ⊢
  by_cases htree : tree = .nil
  · rw [if_pos htree] at hcrash ⊢
    by_cases hcontent : content = []
    · rw [if_pos hcontent, htree, hcontent]
      apply Iff.intro
      · rintro ⟨⟩
        exact Or.inr ⟨rfl, [], [], [], .nil, rfl, .nil, Nat.pos_of_ne_zero hcount, .here _⟩
      · rintro (⟨-, indices, _, _, _, _, _, hbits, -⟩ | ⟨rfl, -⟩)
        · have := congrArg List.length hbits
          simp at this
        · rfl
    · exact absurd (if_neg hcontent) hcrash
  rw [if_neg htree]
  apply Iff.intro
  · intro h
    cases hscan : scanBytes tree tree count content with
    | finished indices rest' => rw [hscan] at h; cases h
    | stuck indices =>
        rw [hscan] at h
        cases h
        exact Or.inl ⟨rfl, indices, scanBytes_stuck_iff.mp hscan⟩
    | pending indices need cur =>
        rw [hscan] at h
        cases h
        exact Or.inr ⟨rfl, indices, scanBytes_pending_iff.mp ⟨need, cur, hscan⟩⟩
  · rintro (⟨rfl, indices, hstrays⟩ | ⟨rfl, indices, hstarves⟩)
    · rw [scanBytes_stuck_iff.mpr hstrays]
      rfl
    · obtain ⟨need, cur, hscan⟩ := scanBytes_pending_iff.mpr hstarves
      rw [hscan]
      rfl

theorem readPayload_crashed_iff :
    readPayload tree count content = .crashed ↔ 0 < count ∧ tree = .nil ∧ content ≠ [] := by
  rw [readPayload]
  by_cases hcount : count = 0
  · rw [if_pos hcount]
    exact ⟨fun h => (by cases h), fun h => absurd hcount (Nat.ne_of_gt h.1)⟩
  rw [if_neg hcount]
  by_cases htree : tree = .nil
  · rw [if_pos htree]
    by_cases hcontent : content = []
    · rw [if_pos hcontent]
      exact ⟨fun h => (by cases h), fun h => absurd hcontent h.2.2⟩
    · rw [if_neg hcontent]
      exact ⟨fun _ => ⟨Nat.pos_of_ne_zero hcount, htree, hcontent⟩, fun _ => rfl⟩
  · rw [if_neg htree]
    apply Iff.intro
    · intro h
      cases hscan : scanBytes tree tree count content <;> rw [hscan] at h <;> cases h
    · exact fun h => absurd h.2.1 htree

end

/-! ## Reading a block -/

section

variable {content symbols rest : List UInt8}

/-- A block is complete where the input starts with a block. -/
theorem readBlock_complete_iff :
    readBlock content = .complete symbols rest ↔
      ∃ block, content = block ++ rest ∧ Block block symbols := by
  apply Iff.intro
  · intro h
    rcases header_cases content with hshort | ⟨count, treeLength, tail, hcount, rfl, hrange⟩ |
      ⟨count, treeLength, tail, hcount, rfl, hrange, hshort⟩ |
      ⟨count, words, payload, hcount, hwords, rfl⟩
    · rw [readBlock_short hshort] at h
      cases h
    · rw [readBlock_head hcount, if_pos hrange] at h
      cases h
    · rw [readBlock_head hcount, if_neg hrange, if_pos hshort] at h
      cases h
    · rw [readBlock_header hcount hwords, readPayload_complete_iff] at h
      rcases h with ⟨used, walked, indices, rfl, hfills, hwalks, rfl, rfl⟩
      exact ⟨blockHeader indices.length words ++ used, (List.append_assoc ..).symm,
        .block hcount hwords hwalks hfills⟩
  · intro h'
    rcases h' with ⟨block, rfl, hblock⟩
    cases hblock with
    | block hcount hwords hwalks hfills =>
        rw [List.append_assoc, readBlock_header hcount hwords, readPayload_complete_iff]
        exact ⟨_, _, _, rfl, hfills, hwalks, rfl, rfl⟩

/-- An input that is one block. -/
theorem blocks_of_readBlock (h : readBlock content = .complete symbols []) :
    Blocks content symbols := by
  obtain ⟨block, rfl, hblock⟩ := readBlock_complete_iff.mp h
  exact List.append_nil symbols ▸ BlocksOf.cons hblock .nil

/-- Reading crashes where a block that needs a tree has none. -/
theorem readBlock_crashed_iff : readBlock content = .crashed ↔ TreelessBlock content := by
  apply Iff.intro
  · intro h
    rcases header_cases content with hshort | ⟨count, treeLength, tail, hcount, rfl, hrange⟩ |
      ⟨count, treeLength, tail, hcount, rfl, hrange, hshort⟩ |
      ⟨count, words, payload, hcount, hwords, rfl⟩
    · rw [readBlock_short hshort] at h
      cases h
    · rw [readBlock_head hcount, if_pos hrange] at h
      cases h
    · rw [readBlock_head hcount, if_neg hrange, if_pos hshort] at h
      cases h
    · rw [readBlock_header hcount hwords, readPayload_crashed_iff] at h
      exact ⟨count, words, payload, rfl, h.1, hcount, hwords, h.2.1, h.2.2⟩
  · intro h'
    rcases h' with ⟨count, words, payload, rfl, hpos, hcount, hwords, htree, hpayload⟩
    rw [readBlock_header hcount hwords, readPayload_crashed_iff]
    exact ⟨hpos, htree, hpayload⟩

/-- Apart from that, reading fails with what is wrong first. -/
theorem readBlock_failed_iff {code : HufError} (htree : ¬ TreelessBlock content) :
    readBlock content = .failed code ↔ BlockFault content code := by
  have hpayload : ∀ {count words payload}, count < 2 ^ 64 → words.length ≤ hufBtreeLen →
      content = blockHeader count words ++ payload →
      readPayload (denotedTree hufLeafNode words) count payload ≠ .crashed := by
    rintro count words payload hcount hwords rfl hcrash
    rw [← readBlock_header hcount hwords] at hcrash
    exact htree (readBlock_crashed_iff.mp hcrash)
  apply Iff.intro
  · intro h
    rcases header_cases content with hshort | ⟨count, treeLength, tail, hcount, rfl, hrange⟩ |
      ⟨count, treeLength, tail, hcount, rfl, hrange, hshort⟩ |
      ⟨count, words, payload, hcount, hwords, hcontent⟩
    · rw [readBlock_short hshort] at h
      cases h
      exact .header hshort
    · rw [readBlock_head hcount, if_pos hrange] at h
      cases h
      exact .range hcount hrange
    · rw [readBlock_head hcount, if_neg hrange, if_pos hshort] at h
      cases h
      exact .words hcount hrange hshort
    · have hnocrash := hpayload hcount hwords hcontent
      subst hcontent
      rw [readBlock_header hcount hwords, readPayload_failed_iff hnocrash] at h
      rcases h with ⟨rfl, indices, hstrays⟩ | ⟨rfl, indices, hstarves⟩
      · exact .astray hcount hwords hstrays
      · exact .starved hcount hwords hstarves
  · intro h
    cases h with
    | header hshort => exact readBlock_short hshort
    | range hcount hrange => rw [readBlock_head hcount, if_pos hrange]
    | words hcount hrange hshort =>
        rw [readBlock_head hcount, if_neg hrange, if_pos hshort]
    | astray hcount hwords hstrays =>
        rw [readBlock_header hcount hwords,
          readPayload_failed_iff (hpayload hcount hwords rfl)]
        exact Or.inl ⟨rfl, _, hstrays⟩
    | starved hcount hwords hstarves =>
        rw [readBlock_header hcount hwords,
          readPayload_failed_iff (hpayload hcount hwords rfl)]
        exact Or.inr ⟨rfl, _, hstarves⟩

end

/-! ## Reading blocks -/

@[simp] theorem ReadEnd.after_nil (e : ReadEnd) : e.after [] = e := by
  cases e <;> rfl

theorem ReadEnd.after_after (xs ys : List UInt8) (e : ReadEnd) :
    (e.after ys).after xs = e.after (xs ++ ys) := by
  cases e <;> simp [ReadEnd.after]

theorem readBlocks_zero (content : List UInt8) : readBlocks 0 content = .complete [] content := by
  rw [readBlocks, if_pos rfl]

section

variable {content symbols rest front : List UInt8} {left : ℕ}

theorem readBlocks_of_complete (hleft : left ≠ 0)
    (h : readBlock content = .complete symbols rest) :
    readBlocks left content =
      (readBlocks (left - (content.length - rest.length)) rest).after symbols := by
  rw [readBlocks, if_neg hleft]
  split
  · rename_i symbols' rest' h'
    rw [h] at h'
    cases h'
    rfl
  · rename_i code h'
    rw [h] at h'
    cases h'
  · rename_i h'
    rw [h] at h'
    cases h'

theorem readBlocks_of_failed (hleft : left ≠ 0) {code : HufError}
    (h : readBlock content = .failed code) : readBlocks left content = .failed code := by
  rw [readBlocks, if_neg hleft]
  split
  · rename_i symbols' rest' h'
    rw [h] at h'
    cases h'
  · rename_i code' h'
    rw [h] at h'
    cases h'
    rfl
  · rename_i h'
    rw [h] at h'
    cases h'

theorem readBlocks_of_crashed (hleft : left ≠ 0) (h : readBlock content = .crashed) :
    readBlocks left content = .crashed := by
  rw [readBlocks, if_neg hleft]
  split
  · rename_i symbols' rest' h'
    rw [h] at h'
    cases h'
  · rename_i code' h'
    rw [h] at h'
    cases h'
  · rfl

/-- Reading passes over blocks. -/
theorem readBlocks_append (h : Blocks front symbols) (hleft : front.length ≤ left)
    (rest : List UInt8) :
    readBlocks left (front ++ rest) =
      (readBlocks (left - front.length) rest).after symbols := by
  induction h generalizing left with
  | nil => rw [ReadEnd.after_nil]; rfl
  | @cons block symbols tail later hblock _ ih =>
      have hread : readBlock (block ++ (tail ++ rest)) = .complete symbols (tail ++ rest) :=
        readBlock_complete_iff.mpr ⟨block, rfl, hblock⟩
      have hshorter := (readBlock_rest hread).2
      simp only [List.length_append] at hshorter hleft
      rw [List.append_assoc, readBlocks_of_complete (by omega) hread, List.length_append,
        Nat.add_sub_cancel, ih (by omega), ReadEnd.after_after, List.length_append, Nat.sub_sub]

/-- Reading stops behind some blocks: because the declared length is used up, or
at something that is not a block. -/
theorem readBlocks_cases (left : ℕ) (content : List UInt8) :
    ∃ front symbols rest, content = front ++ rest ∧ Blocks front symbols ∧
      ((left ≤ front.length ∧ readBlocks left content = .complete symbols rest) ∨
        (front.length < left ∧ (∃ code, readBlock rest = .failed code) ∧
          readBlocks left content = readBlock rest) ∨
        (front.length < left ∧ readBlock rest = .crashed ∧
          readBlocks left content = .crashed)) := by
  induction left using Nat.strongRecOn generalizing content with
  | _ left ih =>
      by_cases hleft : left = 0
      · subst hleft
        exact ⟨[], [], content, rfl, .nil, Or.inl ⟨Nat.le_refl 0, readBlocks_zero content⟩⟩
      have hpos : ([] : List UInt8).length < left := Nat.pos_of_ne_zero hleft
      cases hread : readBlock content with
      | failed code =>
          refine ⟨[], [], content, rfl, .nil, Or.inr (Or.inl ⟨hpos, ⟨code, hread⟩, ?_⟩)⟩
          rw [readBlocks_of_failed hleft hread, hread]
      | crashed =>
          exact ⟨[], [], content, rfl, .nil,
            Or.inr (Or.inr ⟨hpos, hread, readBlocks_of_crashed hleft hread⟩)⟩
      | complete symbols tail =>
          obtain ⟨block, rfl, hblock⟩ := readBlock_complete_iff.mp hread
          have hshorter := (readBlock_rest hread).2
          have hstep := readBlocks_of_complete hleft hread
          rw [List.length_append, Nat.add_sub_cancel] at hstep
          rw [List.length_append] at hshorter
          obtain ⟨front, later, rest, rfl, hfront, hends⟩ :=
            ih (left - block.length) (by omega) tail
          refine ⟨block ++ front, symbols ++ later, rest, (List.append_assoc ..).symm,
            .cons hblock hfront, ?_⟩
          rw [List.length_append, hstep]
          rcases hends with
            ⟨hle, hcomplete⟩ | ⟨hlt, ⟨code, hcode⟩, hfailed⟩ | ⟨hlt, hcrash, hcrashed⟩
          · exact Or.inl ⟨by omega, by rw [hcomplete]; rfl⟩
          · exact Or.inr (Or.inl ⟨by omega, ⟨code, hcode⟩, by rw [hfailed, hcode]; rfl⟩)
          · exact Or.inr (Or.inr ⟨by omega, hcrash, by rw [hcrashed]; rfl⟩)

/-- Behind some blocks, and before the declared length is used up, the input goes
on with a block that needs a tree and has none. -/
def ReachesTreeless (left : ℕ) (content : List UInt8) : Prop :=
  ∃ front symbols rest, content = front ++ rest ∧ Blocks front symbols ∧ front.length < left ∧
    TreelessBlock rest

theorem readBlocks_crashed_iff :
    readBlocks left content = .crashed ↔ ReachesTreeless left content := by
  apply Iff.intro
  · intro h
    obtain ⟨front, symbols, rest, rfl, hfront, ⟨-, hends⟩ | ⟨-, ⟨code, hcode⟩, hends⟩ |
      ⟨hlt, hcrash, -⟩⟩ := readBlocks_cases left content
    · rw [h] at hends
      cases hends
    · rw [h, hcode] at hends
      cases hends
    · exact ⟨front, symbols, rest, rfl, hfront, hlt, readBlock_crashed_iff.mp hcrash⟩
  · intro h'
    rcases h' with ⟨front, symbols, rest, rfl, hfront, hlt, htreeless⟩
    rw [readBlocks_append hfront (Nat.le_of_lt hlt),
      readBlocks_of_crashed (by omega) (readBlock_crashed_iff.mpr htreeless)]
    rfl

/-- An input that is blocks and nothing else is read to its end. -/
theorem readBlocks_of_blocks (h : Blocks content symbols) :
    readBlocks content.length content = .complete symbols [] := by
  have hread := readBlocks_append h (Nat.le_refl _) []
  rw [List.append_nil, Nat.sub_self, readBlocks_zero, ReadEnd.after, List.append_nil] at hread
  exact hread

theorem Blocks.eq_nil (h : Blocks [] symbols) : symbols = [] := by
  have hread := readBlocks_of_blocks h
  rw [List.length_nil, readBlocks_zero] at hread
  cases hread
  rfl

theorem readBlocks_complete_iff (content symbols rest : List UInt8) :
    readBlocks content.length content = .complete symbols rest ↔
      Blocks content symbols ∧ rest = [] := by
  apply Iff.intro
  · intro h
    obtain ⟨front, symbols', rest', rfl, hfront, ⟨hle, hends⟩ | ⟨-, ⟨code, hcode⟩, hends⟩ |
      ⟨-, -, hends⟩⟩ := readBlocks_cases content.length content
    · rw [h] at hends
      cases hends
      rw [List.length_append] at hle
      obtain rfl : rest = [] := List.length_eq_zero_iff.mp (by omega)
      exact ⟨by rw [List.append_nil]; exact hfront, rfl⟩
    · rw [h, hcode] at hends
      cases hends
    · rw [h] at hends
      cases hends
  · intro h'
    rcases h' with ⟨h, rfl⟩
    exact readBlocks_of_blocks h

/-- Reading that is complete has used up the declared length. -/
theorem le_length_of_readBlocks (h : readBlocks left content = .complete symbols rest) :
    left ≤ content.length := by
  rcases readBlocks_cases left content with
    ⟨front, symbols', rest', rfl, -, ⟨hle, -⟩ | ⟨-, ⟨code, hcode⟩, hends⟩ | ⟨-, -, hends⟩⟩
  · rw [List.length_append]
    exact Nat.le_add_right_of_le hle
  · rw [h, hcode] at hends
    cases hends
  · rw [h] at hends
    cases hends

theorem readBlocks_failed_iff (htrees : ¬ ReachesTreeless content.length content)
    (code : HufError) :
    readBlocks content.length content = .failed code ↔ FirstFault content code := by
  apply Iff.intro
  · intro h
    obtain ⟨front, symbols, rest, rfl, hfront, ⟨-, hends⟩ | ⟨hlt, -, hends⟩ |
      ⟨-, -, hends⟩⟩ := readBlocks_cases content.length content
    · rw [h] at hends
      cases hends
    · rw [h] at hends
      have hnot : ¬ TreelessBlock rest := fun htreeless =>
        htrees ⟨front, symbols, rest, rfl, hfront, hlt, htreeless⟩
      refine ⟨front, symbols, rest, rfl, hfront, ?_, (readBlock_failed_iff hnot).mp hends.symm⟩
      rintro rfl
      rw [List.append_nil] at hlt
      exact Nat.lt_irrefl _ hlt
    · rw [h] at hends
      cases hends
  · intro h'
    rcases h' with ⟨front, symbols, rest, rfl, hfront, hrest, hfault⟩
    have hpos := List.length_pos_iff.mpr hrest
    have hlt : front.length < (front ++ rest).length := by
      simp only [List.length_append]
      omega
    have hnot : ¬ TreelessBlock rest := fun htreeless =>
      htrees ⟨front, symbols, rest, rfl, hfront, hlt, htreeless⟩
    rw [readBlocks_append hfront (Nat.le_of_lt hlt),
      readBlocks_of_failed (by omega) ((readBlock_failed_iff hnot).mpr hfault)]
    rfl

end

end LibHuffman
