/-
# What is restored before a fault

The decoder writes a symbol as soon as it has come to its leaf, so that a faulty input has
yielded symbols before its fault is found. `restored` are the symbols that reading comes to
until it ends, with a fault or without one. An input that has been cut short still yields
the beginning of what the whole input stands for, and it has no fault other than its end.
-/

import LibHuffman.Format.Grammar

namespace LibHuffman

open Foundation

/-! ## One block -/

/-- The symbols of a payload that are restored before reading it ends. -/
def payloadRestored (tree : BinaryTree Int16) (count : ℕ) (content : List UInt8) : List UInt8 :=
  if count = 0 ∨ tree = .nil then []
  else (scanBytes tree tree count content).symbols.map indexByte

/-- The symbols of the first block that are restored before reading it ends. -/
def blockRestored (content : List UInt8) : List UInt8 :=
  let treeLength := (bytesWord ((content.drop 8).take 2)).toInt
  let words := (content.drop 10).take (2 * treeLength.toNat)
  if content.length < 10 then []
  else if treeLength < 0 ∨ treeLength > hufBtreeLen then []
  else if content.length < 10 + 2 * treeLength.toNat then []
  else
    payloadRestored (denotedTree hufLeafNode (bytesWords treeLength.toNat words))
      (leNat (content.take 8)) (content.drop (10 + 2 * treeLength.toNat))

section

variable {tree : BinaryTree Int16} {count : ℕ} {words indices : List Int16}
  {content symbols rest : List UInt8}

theorem blockRestored_short (h : content.length < 10) : blockRestored content = [] := by
  rw [blockRestored, if_pos h]

/-- What the header of a block says. -/
theorem head_fields (hcount : count < 2 ^ 64) (treeLength : Int16) (rest : List UInt8) :
    leNat ((blockHead count treeLength ++ rest).take 8) = count ∧
      bytesWord (((blockHead count treeLength ++ rest).drop 8).take 2) = treeLength ∧
      (blockHead count treeLength ++ rest).drop 10 = rest := by
  refine ⟨?_, ?_, List.drop_left' (length_blockHead count treeLength)⟩
  · rw [blockHead, List.append_assoc, List.take_left' (length_leBytes 8 count)]
    exact leNat_leBytes hcount
  · rw [blockHead, List.append_assoc, List.drop_left' (length_leBytes 8 count),
      List.take_left' (length_wordBytes treeLength), bytesWord_wordBytes]

/-- The symbols of a block whose header is complete. -/
theorem blockRestored_head (hcount : count < 2 ^ 64) (treeLength : Int16) (rest : List UInt8) :
    blockRestored (blockHead count treeLength ++ rest) =
      if treeLength.toInt < 0 ∨ treeLength.toInt > hufBtreeLen then []
      else if rest.length < 2 * treeLength.toInt.toNat then []
      else
        payloadRestored (denotedTree hufLeafNode (bytesWords treeLength.toInt.toNat
          (rest.take (2 * treeLength.toInt.toNat)))) count
          (rest.drop (2 * treeLength.toInt.toNat)) := by
  rcases head_fields hcount treeLength rest with ⟨hfirst, hword, hdrop⟩
  have hlen : (blockHead count treeLength ++ rest).length = 10 + rest.length := by
    simp
  rw [blockRestored, if_neg (by simp only [hlen]; omega), hword, hfirst, ← List.drop_drop, hdrop,
    hlen]
  simp only [Nat.add_lt_add_iff_left]

/-- The symbols of a block whose tree is complete. -/
theorem blockRestored_header (hcount : count < 2 ^ 64) (hwords : words.length ≤ hufBtreeLen)
    (payload : List UInt8) :
    blockRestored (blockHeader count words ++ payload) =
      payloadRestored (denotedTree hufLeafNode words) count payload := by
  have hlen : (Int16.ofNat words.length).toInt.toNat = words.length := by
    rw [toInt_ofNat_length hwords, Int.toNat_natCast]
  have hbytes : (wordsBytes words).length = 2 * words.length := length_wordsBytes words
  rw [blockHeader, List.append_assoc, blockRestored_head hcount, if_neg, if_neg, hlen,
    List.take_left' hbytes, List.drop_left' hbytes, bytesWords_wordsBytes]
  · simp only [hlen, List.length_append, hbytes]
    omega
  · rw [toInt_ofNat_length hwords]
    omega

end

/-! ## Faults and the symbols before them -/

/-- The input starts with something that is not a block: what is wrong first, and the symbols
of the block that come before it. -/
inductive BlockFaultAfter : List UInt8 → HufError → List UInt8 → Prop
  /-- The input ends inside the header. -/
  | header {content : List UInt8} (hshort : content.length < 10) :
      BlockFaultAfter content .readWrite []
  /-- The length of the tree is out of range. -/
  | range {count : ℕ} {treeLength : Int16} {rest : List UInt8} (hcount : count < 2 ^ 64)
      (hrange : treeLength.toInt < 0 ∨ treeLength.toInt > hufBtreeLen) :
      BlockFaultAfter (blockHead count treeLength ++ rest) .btreeOverflow []
  /-- The input ends inside the tree. -/
  | words {count : ℕ} {treeLength : Int16} {rest : List UInt8} (hcount : count < 2 ^ 64)
      (hrange : ¬ (treeLength.toInt < 0 ∨ treeLength.toInt > hufBtreeLen))
      (hshort : rest.length < 2 * treeLength.toInt.toNat) :
      BlockFaultAfter (blockHead count treeLength ++ rest) .readWrite []
  /-- Behind some walks a step leads to an absent child. -/
  | astray {count : ℕ} {words indices : List Int16} {rest : List UInt8} (hcount : count < 2 ^ 64)
      (hwords : words.length ≤ hufBtreeLen) (htree : denotedTree hufLeafNode words ≠ .nil)
      (hstrays : Strays (denotedTree hufLeafNode words) count (bytesBits rest) indices) :
      BlockFaultAfter (blockHeader count words ++ rest) .btreeCorrupted (indices.map indexByte)
  /-- Behind some walks the input ends inside one. -/
  | starved {count : ℕ} {words indices : List Int16} {rest : List UInt8} (hcount : count < 2 ^ 64)
      (hwords : words.length ≤ hufBtreeLen) (htree : denotedTree hufLeafNode words ≠ .nil)
      (hstarves : Starves (denotedTree hufLeafNode words) count (bytesBits rest) indices) :
      BlockFaultAfter (blockHeader count words ++ rest) .readWrite (indices.map indexByte)

/-- Reading a block fails with what is wrong, after the symbols before it. -/
theorem BlockFaultAfter.read {content found : List UInt8} {code : HufError}
    (h : BlockFaultAfter content code found) :
    readBlock content = .failed code ∧ blockRestored content = found := by
  cases h with
  | header hshort => exact ⟨readBlock_short hshort, blockRestored_short hshort⟩
  | range hcount hrange =>
      rw [readBlock_head hcount, blockRestored_head hcount, if_pos hrange, if_pos hrange]
      exact ⟨rfl, rfl⟩
  | words hcount hrange hshort =>
      rw [readBlock_head hcount, blockRestored_head hcount, if_neg hrange, if_neg hrange,
        if_pos hshort, if_pos hshort]
      exact ⟨rfl, rfl⟩
  | @astray count words indices rest hcount hwords htree hstrays =>
      have hpos : count ≠ 0 := by
        rcases hstrays with ⟨-, -, -, -, -, -, -, hlt, -⟩
        omega
      rw [readBlock_header hcount hwords, blockRestored_header hcount hwords, readPayload,
        if_neg hpos, if_neg htree, payloadRestored, if_neg (not_or.mpr ⟨hpos, htree⟩),
        scanBytes_stuck_iff.mpr hstrays]
      exact ⟨rfl, rfl⟩
  | @starved count words indices rest hcount hwords htree hstarves =>
      have hpos : count ≠ 0 := by
        rcases hstarves with ⟨-, -, -, -, -, hlt, -⟩
        omega
      rcases scanBytes_pending_iff.mpr hstarves with ⟨need, cur, hscan⟩
      rw [readBlock_header hcount hwords, blockRestored_header hcount hwords, readPayload,
        if_neg hpos, if_neg htree, payloadRestored, if_neg (not_or.mpr ⟨hpos, htree⟩), hscan]
      exact ⟨rfl, rfl⟩

/-! ## One block after the other -/

/-- The symbols that are restored before reading `left` bytes of blocks ends. -/
def restored (left : ℕ) (content : List UInt8) : List UInt8 :=
  if left = 0 then []
  else
    match _ : readBlock content with
    | .complete symbols rest => symbols ++ restored (left - (content.length - rest.length)) rest
    | .failed _ => blockRestored content
    | .crashed => blockRestored content
termination_by left
decreasing_by
  have := (readBlock_rest ‹readBlock content = .complete symbols rest›).2
  omega

section

variable {left : ℕ} {block content front more rest symbols : List UInt8}

theorem restored_zero (content : List UInt8) : restored 0 content = [] := by
  rw [restored, if_pos rfl]

theorem restored_of_complete (hleft : left ≠ 0) (h : readBlock content = .complete symbols rest) :
    restored left content =
      symbols ++ restored (left - (content.length - rest.length)) rest := by
  rw [restored, if_neg hleft]
  split
  · rename_i symbols' rest' h'
    rw [h] at h'
    cases h'
    rfl
  · rename_i code h'
    rw [h] at h'
    cases h'
  · rename_i h'
    rw [h] at h'
    cases h'

/-- At a block that is not complete the symbols are those of this block. -/
theorem restored_of_incomplete (hleft : left ≠ 0)
    (h : ∀ symbols rest, readBlock content ≠ .complete symbols rest) :
    restored left content = blockRestored content := by
  rw [restored, if_neg hleft]
  split
  · rename_i symbols rest h'
    exact absurd h' (h symbols rest)
  · rfl
  · rfl

/-- Behind blocks it is their symbols, and what is restored from there. -/
theorem restored_append (h : Blocks front symbols) (hleft : front.length ≤ left)
    (rest : List UInt8) :
    restored left (front ++ rest) = symbols ++ restored (left - front.length) rest := by
  induction h generalizing left with
  | nil => rfl
  | @cons block symbols tail later hblock _ ih =>
      have hread : readBlock (block ++ (tail ++ rest)) = .complete symbols (tail ++ rest) :=
        readBlock_complete_iff.mpr ⟨block, rfl, hblock⟩
      have hshorter := (readBlock_rest hread).2
      simp only [List.length_append] at hshorter hleft
      rw [List.append_assoc, restored_of_complete (by omega) hread, List.length_append,
        Nat.add_sub_cancel, ih (by omega), List.append_assoc, List.length_append, Nat.sub_sub]

/-- Where reading is complete, everything that is read has been restored. -/
theorem restored_of_readBlocks (h : readBlocks left content = .complete symbols rest) :
    restored left content = symbols := by
  induction left using Nat.strongRecOn generalizing content symbols with
  | _ left ih =>
      by_cases hleft : left = 0
      · subst hleft
        rw [readBlocks_zero] at h
        cases h
        exact restored_zero _
      cases hread : readBlock content with
      | failed code => rw [readBlocks_of_failed hleft hread] at h; cases h
      | crashed => rw [readBlocks_of_crashed hleft hread] at h; cases h
      | complete first tail =>
          have hshorter := (readBlock_rest hread).2
          rw [readBlocks_of_complete hleft hread] at h
          rw [restored_of_complete hleft hread]
          cases hlater : readBlocks (left - (content.length - tail.length)) tail with
          | failed code => rw [hlater] at h; cases h
          | crashed => rw [hlater] at h; cases h
          | complete later rest' =>
              rw [hlater] at h
              cases h
              rw [ih _ (by omega) hlater]

/-- From blocks everything is restored. -/
theorem restored_of_blocks (h : Blocks content symbols) :
    restored content.length content = symbols :=
  restored_of_readBlocks (readBlocks_of_blocks h)

/-! ## Inputs that are cut short -/

/-- The header of a block says what its symbols are. -/
theorem blockHeader_inj {count count' : ℕ} {words words' : List Int16}
    {payload payload' : List UInt8} (hcount : count < 2 ^ 64) (hcount' : count' < 2 ^ 64)
    (hwords : words.length ≤ hufBtreeLen) (hwords' : words'.length ≤ hufBtreeLen)
    (h : blockHeader count words ++ payload = blockHeader count' words' ++ payload') :
    count = count' ∧ words = words' ∧ payload = payload' := by
  have hsame : words = words' := by
    rw [← treeWords_header count hwords payload, h, treeWords_header count' hwords' payload']
  subst hsame
  have hlength : (blockHeader count words).length = (blockHeader count' words).length := by
    simp [blockHeader]
  rcases List.append_inj h hlength with ⟨hheader, hpayload⟩
  have hhead := congrArg (fun header => leNat (header.take 8)) hheader
  simp only [blockHeader, (head_fields hcount _ _).1, (head_fields hcount' _ _).1] at hhead
  exact ⟨hhead, rfl, hpayload⟩

/-- A payload that is cut short is pending. -/
theorem readPayload_cut {tree : BinaryTree Int16} {walked : List Bool} {indices : List Int16}
    (hwalks : Walks tree walked indices) (hfills : Fills walked (front ++ more))
    (hmore : more ≠ []) :
    readPayload tree indices.length front = .failed .readWrite ∧
      payloadRestored tree indices.length front <+: indices.map indexByte := by
  have hcount : indices.length ≠ 0 := by
    intro hzero
    rw [List.length_eq_zero_iff] at hzero
    subst hzero
    cases hwalks
    have hnil := fills_nil_iff.mp hfills
    exact hmore (List.append_eq_nil_iff.mp hnil).2
  have htree : tree ≠ .nil := by
    rintro rfl
    exact hcount (by rw [(walks_empty_tree hwalks).2, List.length_nil])
  have hscan : scanBytes tree tree indices.length (front ++ more) = .finished indices [] :=
    scanBytes_finished_iff.mpr ⟨_, walked, (List.append_nil _).symm, hfills, hwalks, rfl⟩
  rcases scanBytes_finished_append hscan with ⟨rest, -, hrest⟩ |
    ⟨found, need, cur, hpending, hfound⟩
  · exact absurd (List.append_eq_nil_iff.mp hrest.symm).2 hmore
  · rw [readPayload, if_neg hcount, if_neg htree, payloadRestored,
      if_neg (not_or.mpr ⟨hcount, htree⟩), hpending]
    exact ⟨rfl, hfound.map indexByte⟩

/-- A block that is cut short is not complete, has no other fault, and yields the first of
its symbols. -/
theorem Block.cut (h : Block (front ++ more) symbols) (hmore : more ≠ []) :
    readBlock front = .failed .readWrite ∧ blockRestored front <+: symbols := by
  generalize hcontent : front ++ more = content at h
  rcases h with @⟨words, walked, indices, payload, hcount, hwords, hwalks, hfills⟩
  rcases header_cases front with hshort | ⟨count, treeLength, rest, hcount', rfl, hrange⟩ |
    ⟨count, treeLength, rest, hcount', rfl, hrange, hshort⟩ |
    ⟨count, words', rest, hcount', hwords', rfl⟩
  · rw [readBlock_short hshort, blockRestored_short hshort]
    exact ⟨rfl, List.nil_prefix⟩
  · -- the length of the tree is that of the whole block
    rw [blockHeader, List.append_assoc, List.append_assoc] at hcontent
    have hlength : treeLength = Int16.ofNat words.length := by
      rw [← (head_fields hcount' treeLength (rest ++ more)).2.1, hcontent]
      exact (head_fields hcount _ _).2.1
    rw [hlength, toInt_ofNat_length hwords] at hrange
    omega
  · rw [readBlock_head hcount', if_neg hrange, if_pos hshort, blockRestored_head hcount',
      if_neg hrange, if_pos hshort]
    exact ⟨rfl, List.nil_prefix⟩
  · rw [List.append_assoc] at hcontent
    rcases blockHeader_inj hcount' hcount hwords' hwords hcontent with ⟨rfl, rfl, rfl⟩
    rw [readBlock_header hcount hwords, blockRestored_header hcount hwords]
    exact readPayload_cut hwalks hfills hmore

/-- What remains of blocks that are cut short is blocks, or ends inside a block. Either way
it yields the first of the symbols. -/
theorem Blocks.cut (h : Blocks content symbols) (hfront : front <+: content) :
    restored front.length front <+: symbols ∧
      (Blocks front (restored front.length front) ∨
        readBlocks front.length front = .failed .readWrite) := by
  induction h generalizing front with
  | nil =>
      rw [List.prefix_nil.mp hfront, List.length_nil, restored_zero]
      exact ⟨List.nil_prefix, .inl .nil⟩
  | @cons block symbols tail later hblock _ ih =>
      have hwhole : ∀ front', front' <+: tail →
          restored (block ++ front').length (block ++ front') <+: symbols ++ later ∧
            (Blocks (block ++ front') (restored (block ++ front').length (block ++ front')) ∨
              readBlocks (block ++ front').length (block ++ front') = .failed .readWrite) := by
        intro front' hfront'
        rcases ih hfront' with ⟨hpre, hends⟩
        have hone : Blocks block symbols := by
          have hcons := BlocksOf.cons hblock .nil
          rwa [List.append_nil, List.append_nil] at hcons
        have hle : block.length ≤ (block ++ front').length := by
          rw [List.length_append]
          exact Nat.le_add_right _ _
        have hleft : (block ++ front').length - block.length = front'.length := by
          rw [List.length_append, Nat.add_sub_cancel_left]
        rw [restored_append hone hle, readBlocks_append hone hle, hleft,
          List.prefix_append_right_inj]
        refine ⟨hpre, hends.imp (fun hblocks => .cons hblock hblocks) fun hfailed => ?_⟩
        rw [hfailed]
        rfl
      rcases hfront with ⟨more, hcontent⟩
      rcases List.append_eq_append_iff.mp hcontent with ⟨missing, rfl, -⟩ | ⟨front', rfl, hrest⟩
      · by_cases hmissing : missing = []
        · subst hmissing
          have hnone := hwhole [] List.nil_prefix
          rwa [List.append_nil, List.append_nil] at hnone
        by_cases hempty : front = []
        · rw [hempty, List.length_nil, restored_zero]
          exact ⟨List.nil_prefix, .inl .nil⟩
        · have hleft : front.length ≠ 0 := fun hzero => hempty (List.length_eq_zero_iff.mp hzero)
          rcases Block.cut hblock hmissing with ⟨hread, hpre⟩
          rw [readBlocks_of_failed hleft hread, restored_of_incomplete hleft (by simp [hread])]
          exact ⟨hpre.trans (List.prefix_append _ _), .inr rfl⟩
      · exact hwhole front' ⟨more, hrest.symm⟩

end

end LibHuffman
