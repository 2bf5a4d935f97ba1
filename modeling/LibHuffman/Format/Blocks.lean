/-
# Reading encoded blocks

A block is a header, a tree and a payload. `readBlock` reads one block from the
front of a byte string, `readBlocks` one block after the other until the declared
length is used up. They are the decoder without its buffers, its heap and its
loops over bits, with the one input on which it has no result marked as a crash.
-/

import LibHuffman.Foundation.CodeTree
import LibHuffman.Foundation.Preorder
import LibHuffman.Model.System

namespace LibHuffman

open Foundation

/-- How reading ends: with the symbols and what follows them, with an error code,
or by following a null pointer. -/
inductive ReadEnd
  | complete (symbols : List UInt8) (rest : List UInt8)
  | failed (code : HufError)
  | crashed
  deriving DecidableEq

/-- Reading that had produced `symbols` before. -/
def ReadEnd.after (symbols : List UInt8) : ReadEnd → ReadEnd
  | .complete later rest => .complete (symbols ++ later) rest
  | .failed code => .failed code
  | .crashed => .crashed

/-- The byte that a leaf stands for. -/
def indexByte (index : Int16) : UInt8 := index.toUInt16.toUInt8

/-- What the end of a scan means for the block. -/
def scanEnd : Scan Int16 UInt8 → ReadEnd
  | .finished symbols rest => .complete (symbols.map indexByte) rest
  | .stuck _ => .failed .btreeCorrupted
  | .pending _ _ _ => .failed .readWrite

theorem scanEnd_after (symbols : List Int16) (s : Scan Int16 UInt8) :
    scanEnd (s.after symbols) = (scanEnd s).after (symbols.map indexByte) := by
  cases s with
  | finished later rest => rw [Scan.after, scanEnd, List.map_append]; rfl
  | stuck later => rfl
  | pending later need cur => rfl

/-- Read the payload of a block of `count` symbols. -/
def readPayload (tree : BinaryTree Int16) (count : ℕ) (content : List UInt8) : ReadEnd :=
  if count = 0 then .complete [] content
  else if tree = .nil then
    if content = [] then .failed .readWrite else .crashed
  else scanEnd (scanBytes tree tree count content)

/-- Read one block. -/
def readBlock (content : List UInt8) : ReadEnd :=
  let treeLength := (bytesWord ((content.drop 8).take 2)).toInt
  let words := (content.drop 10).take (2 * treeLength.toNat)
  if content.length < 10 then .failed .readWrite
  else if treeLength < 0 ∨ treeLength > hufBtreeLen then .failed .btreeOverflow
  else if content.length < 10 + 2 * treeLength.toNat then .failed .readWrite
  else
    readPayload (denotedTree hufLeafNode (bytesWords treeLength.toNat words))
      (leNat (content.take 8)) (content.drop (10 + 2 * treeLength.toNat))

theorem readPayload_rest {tree : BinaryTree Int16} {count : ℕ} {content symbols rest : List UInt8}
    (h : readPayload tree count content = .complete symbols rest) : rest <:+ content := by
  rw [readPayload] at h
  split at h
  · injection h with _ hrest
    exact hrest ▸ List.suffix_refl _
  · split at h
    · split at h <;> cases h
    · cases hscan : scanBytes tree tree count content with
      | finished found rest' =>
          rw [hscan] at h
          injection h with _ hrest
          obtain ⟨used, walked, hcontent, -⟩ := scanBytes_finished_iff.mp hscan
          exact ⟨used, by rw [hcontent, hrest]⟩
      | stuck found => rw [hscan] at h; cases h
      | pending found need cur => rw [hscan] at h; cases h

/-- A block takes at least its header. -/
theorem readBlock_rest {content symbols rest : List UInt8}
    (h : readBlock content = .complete symbols rest) :
    rest <:+ content ∧ rest.length + 10 ≤ content.length := by
  rw [readBlock] at h
  split at h
  · cases h
  · split at h
    · cases h
    · split at h
      · cases h
      · have hsuffix := readPayload_rest h
        refine ⟨hsuffix.trans (List.drop_suffix _ _), ?_⟩
        have hle := hsuffix.length_le
        simp only [List.length_drop] at hle
        omega

/-- Read blocks until `left` bytes of the declared length are used up. -/
def readBlocks (left : ℕ) (content : List UInt8) : ReadEnd :=
  if left = 0 then .complete [] content
  else
    match _ : readBlock content with
    | .complete symbols rest =>
      (readBlocks (left - (content.length - rest.length)) rest).after symbols
    | .failed code => .failed code
    | .crashed => .crashed
termination_by left
decreasing_by
  have := (readBlock_rest ‹readBlock content = .complete symbols rest›).2
  omega

end LibHuffman
