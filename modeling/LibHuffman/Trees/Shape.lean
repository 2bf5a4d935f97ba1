/-
# The shape of the finished tree

The nodes that are reached from the root are those in the slots of the finished
forest. So what the construction has done with a slot says how its node is linked:
the slots of bytes are leaves, the joining slots but the last have two children, and
the last one is the root.
-/

import LibHuffman.Allocation.Build
import LibHuffman.Encode.Histogram
import LibHuffman.Trees.Codes

namespace LibHuffman

open Foundation Allocating

/-! ## Nodes below a pointer -/

/-- A node without children. -/
def HufNode.IsLeaf (node : HufNode) : Prop := node.left = none ∧ node.right = none

/-- A node that is reached from a pointer through the pointers to children. -/
inductive Reached (nodes : ℕ → Option HufNode) : Option ℕ → ℕ → HufNode → Prop
  | here {p : ℕ} {node : HufNode} (hnode : nodes p = some node) : Reached nodes (some p) p node
  | left {p q : ℕ} {node below : HufNode} (hnode : nodes p = some node)
      (h : Reached nodes node.left q below) : Reached nodes (some p) q below
  | right {p q : ℕ} {node below : HufNode} (hnode : nodes p = some node)
      (h : Reached nodes node.right q below) : Reached nodes (some p) q below

/-- The nodes that are reached from a pointer are those of the tree there. -/
theorem TreeAt.reached_iff {heap : Heap} {pointer : Option ℕ} {tree : BinaryTree Int16}
    {cells : List ℕ} (h : TreeAt heap pointer tree cells) {p : ℕ} {node : HufNode} :
    Reached heap.nodes pointer p node ↔ p ∈ cells ∧ heap.nodes p = some node := by
  induction h with
  | absent =>
      apply Iff.intro
      · intro h
        cases h
      · intro h
        exact absurd h.1 List.not_mem_nil
  | @node q top left right lefts rights hnode _ _ ihLeft ihRight =>
      rw [List.mem_cons, List.mem_append]
      apply Iff.intro
      · intro h
        cases h with
        | here hnode' => exact ⟨Or.inl rfl, hnode'⟩
        | left hnode' h =>
            cases hnode.symm.trans hnode'
            exact (ihLeft.mp h).imp_left fun hp => Or.inr (Or.inl hp)
        | right hnode' h =>
            cases hnode.symm.trans hnode'
            exact (ihRight.mp h).imp_left fun hp => Or.inr (Or.inr hp)
      · intro h
        rcases h with ⟨rfl | hp | hp, hnode'⟩
        · exact .here hnode'
        · exact .left hnode (ihLeft.mpr ⟨hp, hnode'⟩)
        · exact .right hnode (ihRight.mpr ⟨hp, hnode'⟩)

/-- A well-formed code tree of some bytes. -/
structure WellFormed (bytes : Finset ℕ) (heap : Heap) (tree : HufTree) : Prop where
  /-- No node is reached on two ways. -/
  isTree : ∃ shape, heap.Holds tree.root shape
  root : ∃ p node, tree.root = some p ∧ heap.nodes p = some node ∧
    node.index = Int16.ofNat (hufAsciiCount + bytes.card - 1) ∧ node.parent = none ∧
    node.left ≠ none ∧ node.right = none
  /-- Every leaf stands for one of the bytes. -/
  leaf : ∀ p node, Reached heap.nodes tree.root p node → node.IsLeaf →
    ∃ byte ∈ bytes, node.index = Int16.ofNat byte
  /-- Every byte has one leaf, and is entered with it in the leaves. -/
  entered : ∀ byte ∈ bytes, ∃ p, tree.leaves[byte]? = some (some p) ∧
    ∀ q, (∃ node, Reached heap.nodes tree.root q node ∧ node.IsLeaf ∧
      node.index = Int16.ofNat byte) ↔ q = p
  absent : ∀ byte < hufAsciiCount, byte ∉ bytes → tree.leaves[byte]? = some none
  /-- The other nodes are numbered from `HUF_ASCII_COUNT` on. -/
  inner : ∀ p node, Reached heap.nodes tree.root p node → ¬ node.IsLeaf →
    ∃ k, hufAsciiCount ≤ k ∧ k < hufAsciiCount + bytes.card ∧ node.index = Int16.ofNat k
  numbered : ∀ k, hufAsciiCount ≤ k → k < hufAsciiCount + bytes.card → ∃ p,
    ∀ q, (∃ node, Reached heap.nodes tree.root q node ∧ ¬ node.IsLeaf ∧
      node.index = Int16.ofNat k) ↔ q = p
  full : ∀ p node, Reached heap.nodes tree.root p node → ¬ node.IsLeaf → tree.root ≠ some p →
    node.left ≠ none ∧ node.right ≠ none
  parent : ∀ p node q, Reached heap.nodes tree.root p node →
    node.left = some q ∨ node.right = some q →
    ∃ child, heap.nodes q = some child ∧ child.parent = some p

/-! ## Joining slots -/

namespace Forest

/-- Every joining slot below a bound has joined two others. -/
def Paired (forest : Forest) (bound : ℕ) : Prop :=
  ∀ k, hufAsciiCount ≤ k → k < bound → (forest.trees k).right ≠ .nil

section

variable {forest grown : Forest} {bytes : Finset ℕ} {total : ℕ}

/-- Only the last step of the construction joins a single slot. -/
theorem Grows.paired (hgrows : Grows forest grown) (h : Sound bytes total forest)
    (hpaired : forest.Paired forest.node) :
    grown.Paired (grown.node - 1) ∧ (grown.trees (grown.node - 1)).right = .nil := by
  induction hgrows with
  | last _ _ _ =>
      rw [node_join, Nat.add_sub_cancel, trees_join_node]
      refine ⟨fun k hk hlt => ?_, rfl⟩
      rw [trees_join (Nat.ne_of_lt hlt)]
      exact hpaired k hk hlt
  | @more forest grown i j hnode hchosen _ _ ih =>
      apply ih (h.join hchosen hnode)
      intro k hk hlt
      rw [node_join] at hlt
      by_cases hnew : k = forest.node
      · subst hnew
        have hroot := h.rootSlot_trees (hchosen.second_lt j rfl)
        rw [trees_join_node]
        show forest.trees j ≠ .nil
        intro hnil
        rw [hnil] at hroot
        cases hroot
      · rw [trees_join hnew]
        exact hpaired k hk (by omega)

end

end Forest

/-- In the finished forest the last joining slot has one child and the others two. -/
theorem Forest.Countable.paired {rates : List ℕ} (h : Forest.Countable rates) :
    (Forest.grown rates).Paired ((Forest.grown rates).node - 1) ∧
      ((Forest.grown rates).trees ((Forest.grown rates).node - 1)).right = .nil :=
  h.grows.paired (Forest.sound_seed h.length h.above)
    fun _ hk hlt => absurd hlt (Nat.not_lt.mpr hk)

/-! ## Nodes of slots -/

/-- The node of a slot of the finished forest. -/
inductive InSlot (rates : List ℕ) (shadow : List (Option ℕ)) : ℕ → HufNode → Prop
  | leaf {k : ℕ} (hbyte : k ∈ Forest.counted rates) :
      InSlot rates shadow k
        ⟨Int16.ofNat k, address shadow ((Forest.grown rates).parent k), none, none⟩
  | joining {k i : ℕ} {second : Option ℕ} (hle : hufAsciiCount ≤ k)
      (hlt : k < hufAsciiCount + (Forest.counted rates).card)
      (hjoin : (Forest.grown rates).Joins k i second) :
      InSlot rates shadow k ⟨Int16.ofNat k, address shadow ((Forest.grown rates).parent k),
        address shadow (some i), address shadow second⟩

section

variable {before : HistogramTree} {rates : List ℕ} {s : TreeBuild} {k p : ℕ} {node : HufNode}

theorem InSlot.mem_values (h : InSlot rates s.1.shadowTree k node)
    (hrates : Forest.Countable rates) : k ∈ values (hufTree rates) := by
  rw [hrates.mem_values]
  cases h with
  | leaf hbyte => exact Or.inl hbyte
  | joining hle hlt _ => exact Or.inr ⟨hle, hlt⟩

theorem InSlot.lt (h : InSlot rates s.1.shadowTree k node) : k < hufHistogramLen := by
  have hcard := Forest.card_counted_le rates
  have hlen : hufHistogramLen = hufAsciiCount + hufAsciiCount := rfl
  cases h with
  | leaf hbyte =>
      have := (Forest.mem_counted.mp hbyte).1
      omega
  | joining _ hlt _ => omega

/-- The nodes of the used slots are in the heap. -/
theorem Renders.inSlot (h : Renders before (Forest.grown rates).plan s)
    (hrates : Forest.Countable rates) (hk : k ∈ values (hufTree rates)) :
    ∃ p node, address s.1.shadowTree (some k) = some p ∧ s.2.heap.nodes p = some node ∧
      InSlot rates s.1.shadowTree k node := by
  obtain ⟨hsound, hnode, -⟩ := hrates.grown
  rcases hrates.mem_values.mp hk with hbyte | ⟨hle, hlt⟩
  · have hlt := (Forest.mem_counted.mp hbyte).1
    have hslot : (Forest.grown rates).plan.slot k ≠ none := by
      rw [Forest.slot_plan, if_pos (Or.inr ((hrates.parent_iff hlt).mpr hbyte))]
      exact Option.some_ne_none _
    obtain ⟨p, hp, hat⟩ := h.byteNode hsound hlt hslot
    exact ⟨p, _, hp, hat, .leaf hbyte⟩
  · obtain ⟨i, second, hjoin⟩ := hsound.inner k hle (by omega)
    obtain ⟨p, hp, hat⟩ := h.joining hsound (by omega) hjoin hle
    exact ⟨p, _, hp, hat, .joining hle hlt hjoin⟩

theorem Renders.root_holds (h : Renders before (Forest.grown rates).plan s)
    (hrates : Forest.Countable rates) :
    ∃ cells, TreeAt s.2.heap (address s.1.shadowTree (some ((Forest.grown rates).node - 1)))
        ((hufTree rates).map Int16.ofNat) cells ∧
      cells.map some = (values (hufTree rates)).map fun m => address s.1.shadowTree (some m) := by
  obtain ⟨hsound, hnode, -⟩ := hrates.grown
  have hpos := hrates.live.card_pos
  have hlast : (Forest.grown rates).node - 1 < (Forest.grown rates).node := by omega
  apply h.treeAt hsound hlast
  rw [Forest.slot_plan, if_pos (Or.inl ⟨by omega, hlast⟩)]
  exact Option.some_ne_none _

/-- From the root every used slot is reached, and nothing else. -/
theorem Renders.reached_iff (h : Renders before (Forest.grown rates).plan s)
    (hrates : Forest.Countable rates) :
    Reached s.2.heap.nodes (address s.1.shadowTree (some ((Forest.grown rates).node - 1))) p node ↔
      ∃ k, address s.1.shadowTree (some k) = some p ∧ s.2.heap.nodes p = some node ∧
        InSlot rates s.1.shadowTree k node := by
  obtain ⟨cells, hat, hcells⟩ := h.root_holds hrates
  have hmem : p ∈ cells ↔ ∃ k ∈ values (hufTree rates),
      address s.1.shadowTree (some k) = some p := by
    rw [← List.mem_map_of_injective (Option.some_injective ℕ), hcells, List.mem_map]
  rw [hat.reached_iff, hmem]
  apply Iff.intro
  · intro hreached
    rcases hreached with ⟨⟨k, hk, hp⟩, hnode⟩
    obtain ⟨p', node', hp', hnode', hslot⟩ := h.inSlot hrates hk
    cases hp.symm.trans hp'
    cases hnode.symm.trans hnode'
    exact ⟨k, hp, hnode, hslot⟩
  · intro hslot
    rcases hslot with ⟨k, hp, hnode, hslot⟩
    exact ⟨⟨k, hslot.mem_values hrates, hp⟩, hnode⟩

/-- A slot that a joining slot refers to has an address. -/
theorem Renders.child_ne_none (h : Renders before (Forest.grown rates).plan s) {m : ℕ}
    (hparent : (Forest.grown rates).parent k = some m) :
    address s.1.shadowTree (some k) ≠ none := fun haddress =>
  slot_ne_none_of_parent hparent (h.slot_eq_none_iff.mpr haddress)

theorem InSlot.index (h : InSlot rates s.1.shadowTree k node) : node.index = Int16.ofNat k := by
  cases h <;> rfl

/-- The number of a slot is recovered from the index of its node. -/
theorem InSlot.eq_of_index (h : InSlot rates s.1.shadowTree k node) {m : ℕ}
    (hm : m < hufHistogramLen) (hindex : node.index = Int16.ofNat m) : k = m := by
  have hk := h.lt
  have hsame : Int16.ofNat k = Int16.ofNat m := h.index.symm.trans hindex
  have hint := congrArg Int16.toInt hsame
  have hlen : hufHistogramLen = 512 := rfl
  rw [Int16.toInt_ofNat_of_lt (by omega), Int16.toInt_ofNat_of_lt (by omega)] at hint
  omega

theorem InSlot.isLeaf_iff (h : InSlot rates s.1.shadowTree k node)
    (hrenders : Renders before (Forest.grown rates).plan s) :
    node.IsLeaf ↔ k < hufAsciiCount := by
  cases h with
  | leaf hbyte => exact ⟨fun _ => (Forest.mem_counted.mp hbyte).1, fun _ => ⟨rfl, rfl⟩⟩
  | joining hle _ hjoin =>
      exact ⟨fun hleaf => absurd hleaf.1 (hrenders.child_ne_none hjoin.parent),
        fun hlt => absurd hlt (Nat.not_lt.mpr hle)⟩

/-- The joining slots have a second child, except the last. -/
theorem Forest.Countable.second_eq_none_iff (hrates : Forest.Countable rates) {i : ℕ}
    {second : Option ℕ} (hjoin : (Forest.grown rates).Joins k i second)
    (hle : hufAsciiCount ≤ k) (hlt : k < hufAsciiCount + (Forest.counted rates).card) :
    second = none ↔ k = (Forest.grown rates).node - 1 := by
  obtain ⟨hsound, hnode, -⟩ := hrates.grown
  obtain ⟨hpaired, hlast⟩ := hrates.paired
  have hright : ((Forest.grown rates).trees k).right = ((Forest.grown rates).second second).2 := by
    rw [hjoin.tree]
    rfl
  cases second with
  | none =>
      refine ⟨fun _ => ?_, fun _ => rfl⟩
      by_contra hne
      exact hpaired k hle (by omega) hright
  | some j =>
      apply Iff.intro
      · intro hsecond
        cases hsecond
      rintro rfl
      have hj := hsound.rootSlot_trees (Nat.lt_trans (hjoin.lt_second j rfl) (by omega))
      rw [show (Forest.grown rates).trees j = .nil from hright.symm.trans hlast] at hj
      cases hj

/-- A node that is not a leaf has two children, unless it is the root. -/
theorem InSlot.full (h : InSlot rates s.1.shadowTree k node)
    (hrenders : Renders before (Forest.grown rates).plan s) (hrates : Forest.Countable rates)
    (hinner : ¬ node.IsLeaf) (hne : k ≠ (Forest.grown rates).node - 1) :
    node.left ≠ none ∧ node.right ≠ none := by
  cases h with
  | leaf _ => exact absurd ⟨rfl, rfl⟩ hinner
  | @joining i second hle hlt hjoin =>
      refine ⟨hrenders.child_ne_none hjoin.parent, ?_⟩
      cases second with
      | none => exact absurd ((hrates.second_eq_none_iff hjoin hle hlt).mp rfl) hne
      | some j => exact hrenders.child_ne_none (hjoin.parent_second j rfl)

/-- The children of a node are in slots whose parent is its slot. -/
theorem InSlot.child (h : InSlot rates s.1.shadowTree k node) {q : ℕ}
    (hq : node.left = some q ∨ node.right = some q) :
    ∃ m, address s.1.shadowTree (some m) = some q ∧ (Forest.grown rates).parent m = some k := by
  cases h with
  | leaf _ => rcases hq with hq | hq <;> cases hq
  | @joining i second _ _ hjoin =>
      rcases hq with hq | hq
      · exact ⟨i, hq, hjoin.parent⟩
      · cases second with
        | none => cases hq
        | some j => exact ⟨j, hq, hjoin.parent_second j rfl⟩

/-- A slot with a parent has a node that points to its parent. -/
theorem Renders.parent_at (h : Renders before (Forest.grown rates).plan s) {m q : ℕ}
    (hq : address s.1.shadowTree (some m) = some q) (hp : address s.1.shadowTree (some k) = some p)
    (hparent : (Forest.grown rates).parent m = some k) :
    ∃ child, s.2.heap.nodes q = some child ∧ child.parent = some p := by
  obtain ⟨q', hq', hchild⟩ := h.present m _ (if_pos (Or.inr (hparent ▸ Option.some_ne_none k)))
  cases hq.symm.trans hq'
  refine ⟨_, hchild, ?_⟩
  show address s.1.shadowTree ((Forest.grown rates).parent m) = some p
  rw [hparent, hp]

/-- The last joining slot has no parent and one child. -/
theorem Renders.root_node (h : Renders before (Forest.grown rates).plan s)
    (hrates : Forest.Countable rates) :
    ∃ p node, address s.1.shadowTree (some ((Forest.grown rates).node - 1)) = some p ∧
      s.2.heap.nodes p = some node ∧
      node.index = Int16.ofNat (hufAsciiCount + (Forest.counted rates).card - 1) ∧
      node.parent = none ∧ node.left ≠ none ∧ node.right = none := by
  obtain ⟨hsound, hnode, hlive⟩ := hrates.grown
  have hpos := hrates.live.card_pos
  obtain ⟨p, node, hp, hat, hslot⟩ := h.inSlot hrates
    (hrates.mem_values.mpr (Or.inr ⟨by omega, by omega⟩) :
      (Forest.grown rates).node - 1 ∈ values (hufTree rates))
  refine ⟨p, node, hp, hat, ?_⟩
  cases hslot with
  | leaf hbyte =>
      have := (Forest.mem_counted.mp hbyte).1
      omega
  | joining hle hlt hjoin =>
      have hparent := hsound.parent_of_live (hlive ▸ Finset.mem_singleton_self _)
      rw [(hrates.second_eq_none_iff hjoin hle hlt).mpr rfl, hparent, hnode, Nat.add_comm]
      exact ⟨rfl, rfl, h.child_ne_none hjoin.parent, rfl⟩

/-- A used slot is the only one with its kind of node and its index. -/
theorem Renders.only_slot (h : Renders before (Forest.grown rates).plan s)
    (hrates : Forest.Countable rates) (hk : k ∈ values (hufTree rates)) :
    ∃ p, address s.1.shadowTree (some k) = some p ∧ ∀ q, (∃ node,
      Reached s.2.heap.nodes (address s.1.shadowTree (some ((Forest.grown rates).node - 1)))
        q node ∧ (node.IsLeaf ↔ k < hufAsciiCount) ∧ node.index = Int16.ofNat k) ↔ q = p := by
  obtain ⟨p, node, hp, hat, hslot⟩ := h.inSlot hrates hk
  refine ⟨p, hp, fun q => ⟨?_, ?_⟩⟩
  · rintro ⟨node', hq, -, hindex⟩
    rcases (h.reached_iff hrates).mp hq with ⟨m, hm, -, hslot'⟩
    rw [hslot'.eq_of_index hslot.lt hindex] at hm
    exact Option.some.inj (hm.symm.trans hp)
  · rintro rfl
    exact ⟨node, (h.reached_iff hrates).mpr ⟨k, hp, hat, hslot⟩, hslot.isLeaf_iff h, hslot.index⟩

/-- The objects at the end of the construction hold a well-formed tree. -/
theorem Renders.wellFormed (h : Renders before (Forest.grown rates).plan s)
    (hrates : Forest.Countable rates) (hblank : before.tree.leaves = noLeaves)
    (hroot : s.2.tree.root = address s.1.shadowTree (some ((Forest.grown rates).node - 1))) :
    WellFormed (Forest.counted rates) s.2.heap s.2.tree := by
  have hreached : ∀ {p node}, Reached s.2.heap.nodes s.2.tree.root p node →
      ∃ k, address s.1.shadowTree (some k) = some p ∧ InSlot rates s.1.shadowTree k node := by
    intro p node hnode
    rw [hroot] at hnode
    rcases (h.reached_iff hrates).mp hnode with ⟨k, hp, -, hslot⟩
    exact ⟨k, hp, hslot⟩
  constructor
  case isTree =>
    obtain ⟨hsound, hnode, -⟩ := hrates.grown
    have hpos := hrates.live.card_pos
    have hlast : (Forest.grown rates).node - 1 < (Forest.grown rates).node := by omega
    rw [hroot]
    refine ⟨_, h.holds hsound hlast ?_ hrates.values_nodup⟩
    rw [Forest.slot_plan, if_pos (Or.inl ⟨by omega, hlast⟩)]
    exact Option.some_ne_none _
  case root =>
    rw [hroot]
    exact h.root_node hrates
  case leaf =>
    intro p node hnode hleaf
    rcases hreached hnode with ⟨k, -, hslot⟩
    have hlt := (hslot.isLeaf_iff h).mp hleaf
    cases hslot with
    | leaf hbyte => exact ⟨k, hbyte, rfl⟩
    | joining hle _ _ => exact absurd hlt (Nat.not_lt.mpr hle)
  case entered =>
    intro byte hbyte
    have hlt := (Forest.mem_counted.mp hbyte).1
    obtain ⟨p, hp, hiff⟩ := h.only_slot hrates (hrates.mem_values.mpr (Or.inl hbyte))
    refine ⟨p, by rw [h.leaves_eq hrates hblank hlt, if_pos hbyte, hp], ?_⟩
    rw [hroot]
    simpa only [hlt, iff_true] using hiff
  case absent =>
    intro byte hlt hbyte
    rw [h.leaves_eq hrates hblank hlt, if_neg hbyte]
  case inner =>
    intro p node hnode hinner
    rcases hreached hnode with ⟨k, -, hslot⟩
    cases hslot with
    | leaf _ => exact absurd ⟨rfl, rfl⟩ hinner
    | joining hle hlt _ => exact ⟨k, hle, hlt, rfl⟩
  case numbered =>
    intro k hle hlt
    obtain ⟨p, -, hiff⟩ := h.only_slot hrates (hrates.mem_values.mpr (Or.inr ⟨hle, hlt⟩))
    rw [hroot]
    exact ⟨p, by simpa only [Nat.not_lt.mpr hle, iff_false] using hiff⟩
  case full =>
    intro p node hnode hinner hne
    rcases hreached hnode with ⟨k, hp, hslot⟩
    apply hslot.full h hrates hinner
    rintro rfl
    exact hne (hroot.trans hp)
  case parent =>
    intro p node q hnode hq
    rcases hreached hnode with ⟨k, hp, hslot⟩
    obtain ⟨m, hm, hparent⟩ := hslot.child hq
    exact h.parent_at hm hp hparent

end

/-! ## The construction under any schedule -/

/-- A histogram of bytes, as counting a block leaves it: some byte occurs, the total fits
a `size_t`, and nothing occurs before the start. -/
structure ByteHistogram (histogram : HufHistogram) : Prop where
  rates : Forest.Countable histogram.frequencies
  start : ∀ k < histogram.start, histogram.frequencies.getD k 0 = 0

theorem byteHistogram_blockHistogram {block : List UInt8} (hne : block ≠ [])
    (hlen : block.length < 2 ^ 64) : ByteHistogram (blockHistogram block) :=
  ⟨countable_byteRates hne hlen, fun _ hk => byteRates_below_least hk⟩

/-- The construction in a reset tree can begin, if every allocation succeeds. -/
theorem ByteHistogram.buildable {s : HistogramTree} (h : ByteHistogram s.histogram)
    (hreset : s.tree = ⟨noLeaves, none⟩) : Buildable (schedule [] s) where
  rates := h.rates
  start := h.start
  leaves := congrArg HufTree.leaves hreset
  allocations := rfl

/-- The nodes of a tree do not depend on the schedule. -/
theorem WellFormed.of_schedule {bytes : Finset ℕ} {heap : Heap} {tree : HufTree}
    {outcomes : List Bool} (h : WellFormed bytes (schedule outcomes heap) tree) :
    WellFormed bytes heap tree := by
  rcases h.isTree with ⟨shape, cells, hat, hnodup, hlt⟩
  exact ⟨⟨shape, cells, hat.frame fun _ _ => rfl, hnodup, hlt⟩, h.root, h.leaf, h.entered,
    h.absent, h.inner, h.numbered, h.full, h.parent⟩

/-- A construction without failures that succeeds. -/
theorem Buildable.wellFormed {s s' : HistogramTree} (h : Buildable s)
    (hrun : hufTreeFromHistogram s = .ok (.ok (), s')) :
    WellFormed (Forest.counted s.histogram.frequencies) s'.heap s'.tree := by
  rcases hufTreeFromHistogram_renders h with ⟨hfault, -⟩ |
    ⟨-, locals, t, hrun', hrenders, hroot⟩
  · cases hrun.symm.trans hfault
  · cases hrun.symm.trans hrun'
    exact hrenders.wellFormed h.rates h.leaves hroot

/-- A construction that succeeds has built a well-formed tree of the bytes that the
histogram counts. -/
theorem hufTreeFromHistogram_wellFormed {s s' : HistogramTree} (h : ByteHistogram s.histogram)
    (hreset : s.tree = ⟨noLeaves, none⟩) (hrun : hufTreeFromHistogram s = .ok (.ok (), s')) :
    WellFormed (Forest.counted s.histogram.frequencies) s'.heap s'.tree := by
  have hsame := ((hufTreeFromHistogram_endures none).unfailing (by rw [hreset]) hrun).1
  exact ((h.buildable hreset).wellFormed hsame).of_schedule

/-- The construction succeeds for a block of two distinct bytes. -/
theorem hufTreeFromHistogram_wellFormed_two :
    ∃ s', hufTreeFromHistogram ⟨⟨noLeaves, none⟩, blockHistogram [1, 2, 2],
        ⟨fun _ => none, 0, []⟩⟩ = .ok (.ok (), s') ∧
      WellFormed (Forest.counted (byteRates [1, 2, 2])) s'.heap s'.tree := by
  have hhistogram : ByteHistogram (blockHistogram [1, 2, 2]) :=
    byteHistogram_blockHistogram (by decide) (by decide)
  let s : HistogramTree :=
    ⟨⟨noLeaves, none⟩, blockHistogram [1, 2, 2], ⟨fun _ => none, 0, []⟩⟩
  have hbuildable : Buildable s := hhistogram.buildable (s := s) rfl
  rcases hufTreeFromHistogram_renders hbuildable with ⟨-, -, hlarge⟩ | ⟨-, -, s', hrun, -⟩
  · have hweight : (Forest.seed s.histogram.frequencies).pool.weight = 3 :=
      weight_byteRates [1, 2, 2]
    omega
  · exact ⟨s', hrun, hufTreeFromHistogram_wellFormed hhistogram rfl hrun⟩

end LibHuffman
