/-
# The construction is greedy

The scan finds two slots that no other live slot has a smaller rate than, as long as no
rate is negative as a signed number. So the forest goes through Huffman's construction,
and what hangs below the root, which has one child, is an optimal tree.
-/

import LibHuffman.Foundation.Optimal
import LibHuffman.Trees.Iterations

namespace LibHuffman

open Foundation Allocating Routine

namespace Forest

section

variable {forest grown : Forest} {bytes : Finset ℕ} {total i j : ℕ}

theorem Sound.signedRate_eq (h : Sound bytes total forest) (htotal : total < 2 ^ 63) (k : ℕ) :
    signedRate forest.rates k = forest.rate k := by
  have hle := h.rate_le k
  rw [signedRate, toInt64]
  exact if_pos (Nat.lt_of_le_of_lt hle htotal)

/-- No live slot has a smaller rate than the two that the scan finds. -/
theorem Sound.least_of_next (h : Sound bytes total forest) (htotal : total < 2 ^ 63)
    (hnext : forest.next = some (i, some j)) :
    forest.rate i ≤ forest.rate j ∧
      ∀ k ∈ forest.live, k ≠ i → k ≠ j → forest.rate j ≤ forest.rate k := by
  obtain ⟨hfirst, hsecond⟩ := minimum_of_next hnext
  have hsigned := h.signedRate_eq htotal
  have hscan := scanned_minimum (signedRate forest.rates) forest.node
  generalize minimum (signedRate forest.rates) forest.node = m at hscan hfirst hsecond
  cases hscan with
  | absent => cases hfirst
  | single => cases hsecond
  | pair hi hj hne hlive₁ hlive₂ hle hleast =>
      cases hfirst
      cases hsecond
      rw [hsigned, hsigned] at hle
      refine ⟨by omega, fun k hk hki hkj => ?_⟩
      rw [mem_live] at hk
      have hk' := hleast k hk.1 hki hkj (by rw [hsigned]; omega)
      rw [hsigned, hsigned] at hk'
      omega

/-- The construction is Huffman's; the node that the last step adds is above its tree. -/
theorem Grows.builds (hgrows : Grows forest grown) (h : Sound bytes total forest)
    (htotal : total < 2 ^ 63) :
    Pool.Builds forest.pool (grown.trees (grown.node - 1)).left := by
  induction hgrows with
  | @last forest i hnode hchosen _ =>
      rw [node_join, Nat.add_sub_cancel, trees_join_node]
      cases hchosen with
      | single hlive =>
          rw [pool, hlive, Finset.singleton_val, Multiset.map_singleton]
          exact .last (forest.rate i) (forest.trees i)
  | @more forest grown i j hnode hchosen hnext _ ih =>
      obtain ⟨hle, hleast⟩ := h.least_of_next htotal hnext
      have hbuilds := ih (h.join hchosen hnode)
      cases hchosen with
      | pair hi hj hne =>
          rw [pool_join hi (h.length_rates ▸ hnode)] at hbuilds
          rw [pool_pair hi hj hne]
          apply Pool.Builds.merge hle _ hbuilds
          intro entry hentry
          rcases Multiset.mem_map.mp hentry with ⟨k, hk, rfl⟩
          rw [Finset.mem_val, Finset.mem_erase, Finset.mem_erase] at hk
          exact hleast k hk.2.2 hk.2.1 hk.1

end

end Forest

/-- Below its root the tree of a histogram is one that Huffman's construction builds. -/
theorem Forest.Countable.builds {rates : List ℕ} (h : Forest.Countable rates)
    (htotal : (Forest.seed rates).pool.weight < 2 ^ 63) :
    Pool.Builds (Pool.ofLeaves (fun k => rates.getD k 0) (Forest.counted rates))
      (hufTree rates).left :=
  h.grows.builds (Forest.sound_seed h.length h.above) htotal

/-! ## Merges -/

/-- A slot that takes part in the next merge. -/
def TreeBuild.Live (b : TreeBuild) (k : ℕ) : Prop :=
  k < b.1.node ∧ b.2.histogram.frequencies.getD k 0 ≠ 0

/-- An iteration joins two live slots `i` and `j` under the next free slot, and no other
live slot has a smaller rate than either. -/
structure MergesLeast (b b' : TreeBuild) (i j : ℕ) : Prop where
  ne : i ≠ j
  live : b.Live i ∧ b.Live j
  least : ∀ k, b.Live k → k ≠ i → k ≠ j →
    b.2.histogram.frequencies.getD i 0 ≤ b.2.histogram.frequencies.getD k 0 ∧
    b.2.histogram.frequencies.getD j 0 ≤ b.2.histogram.frequencies.getD k 0
  rates : b'.2.histogram.frequencies =
    ((b.2.histogram.frequencies.set i 0).set j 0).set b.1.node
      (b.2.histogram.frequencies.getD i 0 + b.2.histogram.frequencies.getD j 0)
  node : ∃ p node, address b'.1.shadowTree (some b.1.node) = some p ∧
    b'.2.heap.nodes p = some node ∧
    node.left = address b'.1.shadowTree (some i) ∧ node.left ≠ none ∧
    node.right = address b'.1.shadowTree (some j) ∧ node.right ≠ none

section

variable {s : HistogramTree} {t : ℕ} {b b' : TreeBuild}

/-- Every iteration but the last joins two live slots of least rates. -/
theorem Reaches.mergesLeast (h : Reaches s t b) (hs : Mergeable s)
    (hrun : mergeMinimum b = .ok (.ok (.next ()), b')) : ∃ i j, MergesLeast b b' i j := by
  rcases h with ⟨hsheltered, -, forest, hmidway⟩
  have hcard := Forest.card_counted_le s.histogram.frequencies
  have hsame := (Shelters.mergeMinimum.unfailing hsheltered hrun).1
  obtain ⟨i, second, b'', hchosen, hnext, hmerge, hrenders, hsound, -⟩ :=
    hmidway.merge_eq hcard hs.total
  cases second with
  | none => cases hsame.symm.trans hmerge
  | some j =>
  cases hsame.symm.trans hmerge
  have hrates : b.2.histogram.frequencies = forest.rates := hmidway.frequencies
  have hnode : b.1.node = forest.node := hmidway.renders.node
  have hlive : ∀ k, b.Live k ↔ k ∈ forest.live := by
    intro k
    rw [TreeBuild.Live, hrates, hnode, Forest.mem_live]
    rfl
  obtain ⟨hle, hleast⟩ := hmidway.sound.least_of_next hs.total hnext
  obtain ⟨hj, hne⟩ := hchosen.second_mem_live j rfl
  have hjoined : ∀ k, k = i ∨ some k = some j →
      address b'.1.shadowTree (some k) ≠ none := by
    intro k hk haddress
    have hparent : (forest.join i (some j)).parent k = some forest.node := if_pos hk
    exact slot_ne_none_of_parent hparent (hrenders.slot_eq_none_iff.mpr haddress)
  refine ⟨i, j, hne.symm, ⟨(hlive i).mpr hchosen.mem_live, (hlive j).mpr hj⟩, ?_, ?_, ?_⟩
  · intro k hk hki hkj
    rw [hrates]
    have hk' := hleast k ((hlive k).mp hk) hki hkj
    exact ⟨Nat.le_trans hle hk', hk'⟩
  · rw [hrates, hnode]
    exact congrArg HufHistogram.frequencies hrenders.histogram
  · obtain ⟨p, hp, hat⟩ := hrenders.present forest.node _
      (if_pos (Or.inl ⟨hmidway.sound.le_node, Nat.lt_succ_self _⟩))
    have hleft : rootSlot ((forest.join i (some j)).trees forest.node).left = some i := by
      rw [Forest.trees_join_node]
      exact hmidway.sound.rootSlot_trees hchosen.lt
    have hright : rootSlot ((forest.join i (some j)).trees forest.node).right = some j := by
      rw [Forest.trees_join_node]
      exact hmidway.sound.rootSlot_trees (hchosen.second_lt j rfl)
    refine ⟨p, _, hnode ▸ hp, hat, ?_⟩
    rw [SlotNode.render, Forest.slotNode, hleft, hright]
    exact ⟨rfl, hjoined i (Or.inl rfl), rfl, hjoined j (Or.inr rfl)⟩

/-- The tree at the left child of a root has exactly these leaves, and costs no more than
any other tree that has. -/
def OptimalBelow (heap : Heap) (root : Option ℕ) (weight : ℕ → ℕ) (bytes : Finset ℕ) : Prop :=
  ∃ p node cells, ∃ shape : BinaryTree ℕ, root = some p ∧ heap.nodes p = some node ∧
    TreeAt heap node.left (shape.map Int16.ofNat) cells ∧
    (leaves shape : Multiset ℕ) = bytes.val ∧
    ∀ other : BinaryTree ℕ, (leaves other : Multiset ℕ) = bytes.val →
      cost weight shape ≤ cost weight other

theorem OptimalBelow.of_schedule {heap : Heap} {root : Option ℕ} {weight : ℕ → ℕ}
    {bytes : Finset ℕ} (h : OptimalBelow (schedule [] heap) root weight bytes) :
    OptimalBelow heap root weight bytes := by
  rcases h with ⟨p, node, cells, shape, hroot, hnode, hat, hleaves, hleast⟩
  exact ⟨p, node, cells, shape, hroot, hnode, hat.frame fun _ _ => rfl, hleaves, hleast⟩

/-- The left child of the node at a pointer. -/
theorem TreeAt.left {heap : Heap} {pointer : Option ℕ} {tree : BinaryTree Int16}
    {cells : List ℕ} (h : TreeAt heap pointer tree cells) (hne : pointer ≠ none) :
    ∃ p node cells', pointer = some p ∧ heap.nodes p = some node ∧
      TreeAt heap node.left tree.left cells' := by
  cases h with
  | absent => exact absurd rfl hne
  | node hnode hleft _ => exact ⟨_, _, _, rfl, hnode, hleft⟩

theorem left_map {α β : Type} (f : α → β) (tree : BinaryTree α) :
    (tree.map f).left = tree.left.map f := by
  cases tree <;> rfl

/-- Every merge of the construction is greedy, and the tree below the root of its result
is optimal for the rates of the bytes. -/
theorem hufTreeFromHistogram_optimal (hs : Mergeable s) :
    (∀ t b b', Iterates mergeCond mergeBody () (buildStart s) t () b →
      mergeBody () b = .ok (.ok (.next ()), b') → ∃ i j, MergesLeast b b' i j) ∧
    ∀ s', hufTreeFromHistogram s = .ok (.ok (), s') →
      OptimalBelow s'.heap s'.tree.root (fun k => s.histogram.frequencies.getD k 0)
        (Forest.counted s.histogram.frequencies) := by
  refine ⟨fun t b b' hiterates hrun => (hs.iterates hiterates).mergesLeast hs hrun, ?_⟩
  intro s' hrun
  have hrates := hs.histogram.rates
  have hsame := ((hufTreeFromHistogram_endures s.tree.root).unfailing rfl hrun).1
  rcases hufTreeFromHistogram_ends (s := schedule [] s) hrates hs.histogram.start hs.leaves rfl
    with ⟨hfault, -⟩ | ⟨-, locals, t, hrun', hrenders, hroot⟩
  · cases hsame.symm.trans hfault
  cases hsame.symm.trans hrun'
  apply OptimalBelow.of_schedule
  obtain ⟨cells, hat, -⟩ := hrenders.root_holds hrates
  have hne : address locals.shadowTree
      (some ((Forest.grown s.histogram.frequencies).node - 1)) ≠ none := by
    obtain ⟨-, hnode, -⟩ := hrates.grown
    have hpos := hrates.live.card_pos
    obtain ⟨p, node, hp, -⟩ := hrenders.inSlot hrates
      (hrates.mem_values.mpr (Or.inr ⟨by omega, by omega⟩) :
        (Forest.grown s.histogram.frequencies).node - 1 ∈ values (hufTree _))
    exact fun hnone => nomatch hp.symm.trans hnone
  obtain ⟨p, node, cells', hp, hat', hleft⟩ := hat.left hne
  rw [left_map] at hleft
  have hbuilds := hrates.builds hs.total
  exact ⟨p, node, cells', _, hroot.trans hp, hat', hleft, hbuilds.leaves_ofLeaves,
    fun other hother => hbuilds.optimal hother⟩

end

/-- The only merge of a block of two distinct bytes. -/
theorem hufTreeFromHistogram_optimal_two :
    let s : HistogramTree :=
      ⟨⟨noLeaves, none⟩, blockHistogram [1, 2, 2], ⟨fun _ => none, 0, []⟩⟩
    (∀ t b b', Iterates mergeCond mergeBody () (buildStart s) t () b →
      mergeBody () b = .ok (.ok (.next ()), b') → ∃ i j, MergesLeast b b' i j) ∧
    ∃ s', hufTreeFromHistogram s = .ok (.ok (), s') ∧
      OptimalBelow s'.heap s'.tree.root (fun k => (byteRates [1, 2, 2]).getD k 0)
        (Forest.counted (byteRates [1, 2, 2])) := by
  intro s
  have hcount : hufHistogramPopulate [1, 2, 2] emptyHistogram = .ok (.ok (), s.histogram) :=
    hufHistogramPopulate_eq (by decide)
  have hs := (mergeable_of_populate (by decide) (by decide) hcount (List.length_replicate ..)).1
  obtain ⟨-, -, s', -, -, -, hrun, -⟩ := hs.run_eq List.not_mem_nil
  obtain ⟨hmerges, hoptimal⟩ := hufTreeFromHistogram_optimal hs
  exact ⟨hmerges, s', hrun, hoptimal s' hrun⟩

end LibHuffman
