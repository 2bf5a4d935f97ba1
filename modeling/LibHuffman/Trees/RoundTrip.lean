/-
# Round trip of a tree

The words that `huf_tree_serialize` writes are the preorder of a tree, two for every
node and one more. In front of any other words `huf_tree_deserialize` takes exactly these
and builds the same tree again.
-/

import LibHuffman.Allocation.Trees
import LibHuffman.Trees.Deserialize

namespace LibHuffman

open Foundation Allocating

/-- From words, a deserialization rebuilds a tree: it takes a number of the words, and
ends unless an allocation fails. -/
structure Rebuilds (tree : BinaryTree Int16) (taken : ℕ) (words : List Int16) (s : TreeStore) :
    Prop where
  ends : false ∉ s.heap.allocations →
    ∃ s', hufTreeDeserialize words words.length s = .ok (.ok (), s')
  rebuilt : ∀ s', hufTreeDeserialize words words.length s = .ok (.ok (), s') →
    s'.heap.Holds s'.tree.root tree ∧
    hufDeserializeTree words (words.length + 1) .root 0 words.length s = .ok (.ok taken, s')

section

variable {tree : BinaryTree Int16} {s t : TreeStore}

/-- Serialization into a buffer that is large enough. -/
theorem hufTreeSerialize_eq (h : t.heap.Holds t.tree.root tree) {buf : List Int16}
    (hroom : 2 * tree.numNodes + 1 ≤ buf.length) :
    hufTreeSerialize t buf = .ok (preorder hufLeafNode tree ++ buf.drop (2 * tree.numNodes + 1),
      2 * tree.numNodes + 1) := by
  have hheight := h.height_le
  rcases h with ⟨cells, hat, -, -⟩
  rw [hufTreeSerialize, hufSerializeTree_eq hat (by omega),
    memcpy_of_le (by rwa [Nat.zero_add, length_preorder]), length_preorder, Nat.zero_add,
    List.take_zero, List.nil_append]
  rfl

/-- The recursion on the preorder of a tree and further words. -/
theorem hufDeserializeTree_preorder (hmarker : hufLeafNode ∉ values tree) (more : List Int16)
    (halloc : s.heap.allocations = []) (words : List Int16)
    (hwords : words = preorder hufLeafNode tree ++ more) :
    ∃ s', hufDeserializeTree words (words.length + 1) .root 0 words.length s =
        .ok (.ok (2 * tree.numNodes + 1), s') ∧ Planted .root tree s s' := by
  obtain ⟨s', hrun, hplanted, -⟩ := hufDeserializeTree_eq words 0
    (Nat.lt_succ_self words.length) (show NodeSlot.Valid s .root from trivial) halloc
  have hlength : words.length = 2 * tree.numNodes + 1 + more.length := by
    rw [hwords, List.length_append, length_preorder]
  have hheight := tree.height_le_numNodes
  have hread : readPreorder hufLeafNode (words.length + 1) words = (tree, more) := by
    rw [hlength, hwords]
    exact readPreorder_preorder hmarker (by omega) more
  rw [List.drop_zero] at hrun hplanted
  rw [hread] at hrun hplanted
  refine ⟨s', ?_, hplanted⟩
  rw [hrun, hlength, Nat.add_sub_cancel]

/-- In an empty tree, the preorder of a tree is rebuilt. -/
theorem rebuilds_preorder (hmarker : hufLeafNode ∉ values tree) (more : List Int16)
    (hroot : s.tree.root = none) :
    Rebuilds tree (2 * tree.numNodes + 1) (preorder hufLeafNode tree ++ more) s := by
  obtain ⟨t, hrun, hplanted⟩ :=
    hufDeserializeTree_preorder (s := schedule [] s) hmarker more rfl _ rfl
  generalize preorder hufLeafNode tree ++ more = words at hrun
  have hendures : Endures _ _
      (hufDeserializeTree words (words.length + 1) .root 0 words.length) _ :=
    hufDeserializeTree_endures words 0 words.length (show NodeSlot.Valid s .root from trivial)
  constructor
  case ends =>
    intro halloc
    obtain ⟨s', hrun', -⟩ := hendures.succeeding rfl halloc hrun
    exact ⟨s', Routine.bind_of_ok hrun'⟩
  case rebuilt =>
    intro s' hrun'
    obtain ⟨taken, s'', htaken, hlast⟩ := Routine.bind_eq_ok hrun'
    cases hlast
    have hsame := (hendures.unfailing rfl htaken).1
    cases hsame.symm.trans hrun
    exact ⟨(hplanted.holds hroot).of_nodes rfl rfl, htaken⟩

/-- What is serialized can be deserialized in front of any further words. -/
theorem hufTreeSerialize_rebuilds (h : t.heap.Holds t.tree.root tree)
    (hmarker : hufLeafNode ∉ values tree) {buf : List Int16}
    (hroom : 2 * tree.numNodes + 1 ≤ buf.length) :
    ∃ buf', hufTreeSerialize t buf = .ok (buf', 2 * tree.numNodes + 1) ∧
      buf'.length = buf.length ∧
      ∀ more s, s.tree = ⟨noLeaves, none⟩ →
        Rebuilds tree (2 * tree.numNodes + 1) (buf'.take (2 * tree.numNodes + 1) ++ more) s := by
  refine ⟨_, hufTreeSerialize_eq h hroom, ?_, fun more s hreset => ?_⟩
  · rw [List.length_append, length_preorder, List.length_drop]
    omega
  · rw [List.take_left' (length_preorder _ _)]
    exact rebuilds_preorder hmarker more (congrArg HufTree.root hreset)

end

/-- A root with a right child only takes five words. -/
theorem hufTreeSerialize_rebuilds_five :
    let heap : Heap := ⟨fun p => if p = 0 then some ⟨5, none, none, some 1⟩ else
      if p = 1 then some ⟨7, some 0, none, none⟩ else none, 2, []⟩
    ∃ buf', hufTreeSerialize ⟨⟨noLeaves, some 0⟩, heap⟩ [0, 0, 0, 0, 0, 0] = .ok (buf', 5) ∧
      Rebuilds (.node 5 .nil (.node 7 .nil .nil)) 5 (buf'.take 5 ++ [9])
        ⟨⟨noLeaves, none⟩, ⟨fun _ => none, 0, []⟩⟩ := by
  intro heap
  have hchild := TreeAt.node (show heap.nodes 1 = some ⟨7, some 0, none, none⟩ from rfl)
    .absent .absent
  have hat := TreeAt.node (show heap.nodes 0 = some ⟨5, none, none, some 1⟩ from rfl) .absent hchild
  have hholds : heap.Holds (some 0) (.node 5 .nil (.node 7 .nil .nil)) :=
    ⟨[0, 1], hat, by decide, by decide⟩
  obtain ⟨buf', hrun, -, hrebuilds⟩ :=
    hufTreeSerialize_rebuilds (t := ⟨⟨noLeaves, some 0⟩, heap⟩) hholds (by decide)
      (show 5 ≤ [0, 0, 0, 0, 0, 0].length by decide)
  exact ⟨buf', hrun, hrebuilds [9] _ rfl⟩

end LibHuffman
