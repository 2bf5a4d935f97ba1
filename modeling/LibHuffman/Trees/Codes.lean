/-
# The finished tree in the heap

Once the construction has ended, the node in the last slot is the root of a tree in
the heap. `huf_node_to_string` follows the pointers to the parents from a leaf up to
that root, so that what it writes is the path to the leaf, from the last step to the
first.
-/

import LibHuffman.Trees.Build

namespace LibHuffman

open Foundation

/-- The character of a step. -/
def bitChar (bit : Bool) : UInt8 := if bit then '1'.toUInt8 else '0'.toUInt8

section

variable {before : HistogramTree} {forest : Forest} {bytes : Finset ℕ} {total k : ℕ}
  {s : TreeBuild}

/-! ## The nodes of a forest -/

/-- The second child of a joining node. -/
theorem rootSlot_second (hsound : forest.Sound bytes total) {second : Option ℕ}
    (hlt : ∀ j, second = some j → j < forest.node) :
    rootSlot (forest.second second).2 = second := by
  cases second with
  | none => rfl
  | some j => exact hsound.rootSlot_trees (hlt j rfl)

/-- The node of a joining slot in the heap. -/
theorem Renders.joining (h : Renders before forest.plan s) (hsound : forest.Sound bytes total)
    (hk : k < forest.node) {i : ℕ} {second : Option ℕ} (hjoin : forest.Joins k i second)
    (hbyte : hufAsciiCount ≤ k) :
    ∃ p, address s.1.shadowTree (some k) = some p ∧
      s.2.heap.nodes p = some ⟨Int16.ofNat k, address s.1.shadowTree (forest.parent k),
        address s.1.shadowTree (some i), address s.1.shadowTree second⟩ := by
  obtain ⟨p, hp, hnode⟩ := h.present k (forest.slotNode k) (if_pos (Or.inl ⟨hbyte, hk⟩))
  refine ⟨p, hp, ?_⟩
  have hleft : rootSlot (forest.trees k).left = some i := by
    rw [hjoin.tree]
    exact hsound.rootSlot_trees (Nat.lt_trans hjoin.lt hk)
  have hright : rootSlot (forest.trees k).right = second := by
    rw [hjoin.tree]
    exact rootSlot_second hsound fun j hj => Nat.lt_trans (hjoin.lt_second j hj) hk
  rw [hnode, SlotNode.render, Forest.slotNode, hleft, hright]

/-- The node of a byte in the heap, if it has one. -/
theorem Renders.byteNode (h : Renders before forest.plan s) (hsound : forest.Sound bytes total)
    (hbyte : k < hufAsciiCount) (hslot : forest.plan.slot k ≠ none) :
    ∃ p, address s.1.shadowTree (some k) = some p ∧
      s.2.heap.nodes p =
        some ⟨Int16.ofNat k, address s.1.shadowTree (forest.parent k), none, none⟩ := by
  have hplan : forest.plan.slot k = some (forest.slotNode k) := by
    rw [Forest.slot_plan] at hslot ⊢
    exact if_pos (by_contra fun hnot => hslot (if_neg hnot))
  obtain ⟨p, hp, hnode⟩ := h.present k _ hplan
  refine ⟨p, hp, ?_⟩
  rw [hnode, SlotNode.render, Forest.slotNode, hsound.leaf k hbyte]
  rfl

/-- A slot with a parent has a node. -/
theorem slot_ne_none_of_parent {m : ℕ} (hparent : forest.parent k = some m) :
    forest.plan.slot k ≠ none := by
  rw [Forest.slot_plan, if_pos (Or.inr (hparent ▸ Option.some_ne_none m))]
  exact Option.some_ne_none _

/-- The tree of a slot hangs at its address, every node at the address of its slot. -/
theorem Renders.treeAt (h : Renders before forest.plan s) (hsound : forest.Sound bytes total)
    (hk : k < forest.node) (hslot : forest.plan.slot k ≠ none) :
    ∃ cells, TreeAt s.2.heap (address s.1.shadowTree (some k))
        ((forest.trees k).map Int16.ofNat) cells ∧
      cells.map some = (values (forest.trees k)).map fun m => address s.1.shadowTree (some m) := by
  induction k using Nat.strong_induction_on with
  | _ k ih =>
      by_cases hbyte : k < hufAsciiCount
      · obtain ⟨p, hp, hnode⟩ := h.byteNode hsound hbyte hslot
        rw [hsound.leaf k hbyte, hp]
        refine ⟨[p], .node hnode .absent .absent, ?_⟩
        simp [values, hp]
      · obtain ⟨i, second, hjoin⟩ := hsound.inner k (Nat.not_lt.mp hbyte) hk
        obtain ⟨p, hp, hnode⟩ := h.joining hsound hk hjoin (Nat.not_lt.mp hbyte)
        obtain ⟨lefts, hlefts, hcellsLeft⟩ := ih i hjoin.lt (Nat.lt_trans hjoin.lt hk)
          (slot_ne_none_of_parent hjoin.parent)
        obtain ⟨rights, hrights, hcellsRight⟩ : ∃ rights,
            TreeAt s.2.heap (address s.1.shadowTree second)
              ((forest.second second).2.map Int16.ofNat) rights ∧
            rights.map some = (values (forest.second second).2).map
              fun m => address s.1.shadowTree (some m) := by
          cases second with
          | none => exact ⟨[], .absent, rfl⟩
          | some j =>
              have hlt := hjoin.lt_second j rfl
              exact ih j hlt (Nat.lt_trans hlt hk)
                (slot_ne_none_of_parent (hjoin.parent_second j rfl))
        rw [hp, hjoin.tree]
        refine ⟨p :: (lefts ++ rights), .node hnode hlefts hrights, ?_⟩
        rw [values, List.map_cons, List.map_cons, List.map_append, List.map_append, hcellsLeft,
          hcellsRight, hp]

/-- The heap holds the tree of a slot in new nodes. -/
theorem Renders.holds (h : Renders before forest.plan s) (hsound : forest.Sound bytes total)
    (hk : k < forest.node) (hslot : forest.plan.slot k ≠ none)
    (hnodup : (values (forest.trees k)).Nodup) :
    s.2.heap.Holds (address s.1.shadowTree (some k)) ((forest.trees k).map Int16.ofNat) := by
  obtain ⟨cells, hat, hcells⟩ := h.treeAt hsound hk hslot
  have haddress : ∀ m ∈ values (forest.trees k), ∃ p ∈ cells,
      address s.1.shadowTree (some m) = some p := by
    intro m hm
    have hmem := List.mem_map_of_mem (f := fun m => address s.1.shadowTree (some m)) hm
    rw [← hcells, List.mem_map] at hmem
    rcases hmem with ⟨p, hp, heq⟩
    exact ⟨p, hp, heq.symm⟩
  refine ⟨cells, hat, ?_, fun p hp => ?_⟩
  · apply List.Nodup.of_map some
    rw [hcells]
    refine List.Nodup.map_on (fun m hm m' _ heq => ?_) hnodup
    obtain ⟨p, -, hp⟩ := haddress m hm
    exact h.injective m m' p hp (heq ▸ hp)
  · have hmem := List.mem_map_of_mem (f := some) hp
    rw [hcells, List.mem_map] at hmem
    rcases hmem with ⟨m, -, hm⟩
    exact (h.fresh m p hm).2

/-! ## The way up -/

theorem hufNodeToString_root {heap : Heap} {p : ℕ} {node : HufNode} (room : ℕ)
    (hnode : heap.nodes p = some node) (hparent : node.parent = none) :
    hufNodeToString heap room (some p) = .ok [] := by
  cases room with
  | zero =>
      rw [hufNodeToString, Heap.read_of_some hnode]
      rfl
  | succ room =>
      rcases node with ⟨index, parent, left, right⟩
      cases hparent
      rw [hufNodeToString, Heap.read_of_some hnode]
      rfl

theorem hufNodeToString_step {heap : Heap} {p q : ℕ} {node parent : HufNode} (room : ℕ)
    (hnode : heap.nodes p = some node) (hparent : node.parent = some q)
    (hq : heap.nodes q = some parent) :
    hufNodeToString heap (room + 1) (some p) =
      (hufNodeToString heap room (some q)).map
        (bitChar (decide (parent.left ≠ some p)) :: ·) := by
  rcases node with ⟨index, up, left, right⟩
  cases hparent
  rw [hufNodeToString, Heap.read_of_some hnode]
  show (do
    let parent ← heap.read q
    let char := if parent.left = some p then '0' else '1'
    return char.toUInt8 :: (← hufNodeToString heap room (some q)) : Except Fault (List UInt8)) = _
  rw [Heap.read_of_some hq]
  have hchar : (if parent.left = some p then '0' else '1').toUInt8 =
      bitChar (decide (parent.left ≠ some p)) := by
    by_cases hleft : parent.left = some p <;> simp [hleft, bitChar]
  show (do return _ :: (← hufNodeToString heap room (some q)) : Except Fault (List UInt8)) = _
  rw [hchar]
  cases hufNodeToString heap room (some q) <;> rfl

/-- From the node of a child, the way up goes through its parent. -/
theorem Renders.toString_child (h : Renders before forest.plan s)
    (hsound : forest.Sound bytes total) (hk : k < forest.node) {i : ℕ} {second : Option ℕ}
    (hjoin : forest.Joins k i second)
    (hbyte : hufAsciiCount ≤ k) {m : ℕ} (hparent : forest.parent m = some k) (room : ℕ) :
    hufNodeToString s.2.heap (room + 1) (address s.1.shadowTree (some m)) =
      (hufNodeToString s.2.heap room (address s.1.shadowTree (some k))).map
        (bitChar (decide (m ≠ i)) :: ·) := by
  obtain ⟨q, hq, hnodeTop⟩ := h.joining hsound hk hjoin hbyte
  obtain ⟨p, hp, hnode⟩ := h.present m (forest.slotNode m)
    (if_pos (Or.inr (hparent ▸ Option.some_ne_none k)))
  have hparentAddress : ((forest.slotNode m).render s.1.shadowTree).parent = some q := by
    rw [SlotNode.render, Forest.slotNode, hparent, hq]
  have hleft : address s.1.shadowTree (some i) = some p ↔ m = i := by
    refine ⟨fun hi => h.injective m i p hp hi, ?_⟩
    rintro rfl
    exact hp
  rw [hp, hq, hufNodeToString_step room hnode hparentAddress hnodeTop]
  simp only [ne_eq, hleft]

/-- What is written on the way up from a leaf to a slot is the path to the leaf, from
the last step to the first. -/
theorem Renders.toString_path (h : Renders before forest.plan s)
    (hsound : forest.Sound bytes total) (hk : k < forest.node)
    (hslot : forest.plan.slot k ≠ none) {m : ℕ} {bits : List Bool}
    (hpath : Path (forest.trees k) bits m) (room : ℕ) (hroom : bits.length ≤ room) :
    hufNodeToString s.2.heap room (address s.1.shadowTree (some m)) =
      (hufNodeToString s.2.heap (room - bits.length) (address s.1.shadowTree (some k))).map
        (bits.reverse.map bitChar ++ ·) := by
  induction k using Nat.strong_induction_on generalizing bits room with
  | _ k ih =>
      by_cases hbyte : k < hufAsciiCount
      · rw [hsound.leaf k hbyte] at hpath
        cases hpath with
        | leaf =>
            show _ = (hufNodeToString s.2.heap room _).map ([] ++ ·)
            cases hufNodeToString s.2.heap room (address s.1.shadowTree (some m)) <;> rfl
        | left hpath => cases hpath
        | right hpath => cases hpath
      · obtain ⟨i, second, hjoin⟩ := hsound.inner k (Nat.not_lt.mp hbyte) hk
        have hstep := fun m hm => h.toString_child hsound hk hjoin (Nat.not_lt.mp hbyte) (m := m) hm
        -- the child of `k` that the path goes through
        obtain ⟨c, bit, later, rfl, hlt, hparent, hchild, hbit⟩ : ∃ c bit later,
            bits = bit :: later ∧ c < k ∧ forest.parent c = some k ∧
              Path (forest.trees c) later m ∧ decide (c ≠ i) = bit := by
          rw [hjoin.tree] at hpath
          generalize hl : forest.trees i = l at hpath
          generalize hr : (forest.second second).2 = r at hpath
          cases hpath with
          | leaf =>
              have hroot := hsound.rootSlot_trees (Nat.lt_trans hjoin.lt hk)
              rw [hl] at hroot
              cases hroot
          | left hpath =>
              exact ⟨i, false, _, rfl, hjoin.lt, hjoin.parent, hl ▸ hpath,
                decide_eq_false (by simp)⟩
          | right hpath =>
              cases second with
              | none =>
                  rw [← hr] at hpath
                  cases hpath
              | some j =>
                  rw [← hr] at hpath
                  exact ⟨j, true, _, rfl, hjoin.lt_second j rfl, hjoin.parent_second j rfl,
                    hpath, decide_eq_true fun hji => hjoin.ne (congrArg some hji)⟩
        rw [List.length_cons] at hroom
        obtain ⟨left, hleft⟩ : ∃ left, room - later.length = left + 1 :=
          ⟨room - later.length - 1, by omega⟩
        rw [ih c hlt (Nat.lt_trans hlt hk) (slot_ne_none_of_parent hparent) hchild room
            (by omega), hleft, hstep c hparent left, hbit, List.length_cons,
          show room - (later.length + 1) = left by omega]
        cases hufNodeToString s.2.heap left (address s.1.shadowTree (some k)) with
        | error fault => rfl
        | ok chars =>
            simp only [Except.map, List.reverse_cons, List.map_append, List.append_assoc,
              List.map_cons, List.map_nil, List.singleton_append]

end

/-! ## What the construction leaves -/

/-- The objects hold the tree of some rates, with the bytes that the rates count
entered in the leaves; from each of these the way up spells the code of the byte. -/
structure Built (rates : List ℕ) (s : HistogramTree) : Prop where
  holds : s.heap.Holds s.tree.root ((hufTree rates).map Int16.ofNat)
  leaf : ∀ byte < hufAsciiCount, byte ∈ Forest.counted rates →
    ∃ p, s.tree.leaves[byte]? = some (some p) ∧
      hufNodeToString s.heap huf1kibBuffer (some p) =
        .ok ((hufCode rates byte).reverse.map bitChar)
  absent : ∀ byte < hufAsciiCount, byte ∉ Forest.counted rates →
    s.tree.leaves[byte]? = some none
  allocations : s.heap.allocations = []

/-- The leaves at the end are the nodes of the bytes that were counted. -/
theorem Renders.leaves_eq {before : HistogramTree} {rates : List ℕ} {s : TreeBuild} {k : ℕ}
    (h : Renders before (Forest.grown rates).plan s) (hrates : Forest.Countable rates)
    (hblank : before.tree.leaves = noLeaves) (hbyte : k < hufAsciiCount) :
    s.2.tree.leaves[k]? = some (if k ∈ Forest.counted rates then
      address s.1.shadowTree (some k) else none) := by
  have hlt : k < hufAsciiCount * 2 := Nat.lt_trans hbyte (by decide)
  rw [h.leaves k hlt, Forest.published_plan, hblank, noLeaves, List.getElem?_replicate, if_pos hlt]
  simp only [hbyte, true_and, hrates.parent_iff hbyte, decide_eq_true_eq]
  split <;> rfl

/-- `huf_tree_from_histogram` builds the tree of the rates, unless a signed sum
overflows. -/
theorem hufTreeFromHistogram_eq {s : HistogramTree} (h : Buildable s) :
    hufTreeFromHistogram s = .error .signedOverflow ∧
        (Forest.seed s.histogram.frequencies).Overflows ∧
        2 ^ 63 ≤ (Forest.seed s.histogram.frequencies).pool.weight ∨
      ¬ (Forest.seed s.histogram.frequencies).Overflows ∧
      ∃ s', hufTreeFromHistogram s = .ok (.ok (), s') ∧ Built s.histogram.frequencies s' ∧
        s'.histogram = { s.histogram with frequencies := s'.histogram.frequencies } := by
  rcases hufTreeFromHistogram_renders h with hfault | ⟨hfits, locals, s', hrun, hrenders, hroot⟩
  · exact Or.inl hfault
  refine Or.inr ⟨hfits, s', hrun, ?_, ?_⟩
  swap
  · have hhistogram := hrenders.histogram
    rw [hhistogram]
  obtain ⟨hsound, hnode, hlive⟩ := h.rates.grown
  have hpos := h.rates.live.card_pos
  have hlast : (Forest.grown s.histogram.frequencies).node - 1 <
      (Forest.grown s.histogram.frequencies).node := by omega
  have hslot : (Forest.grown s.histogram.frequencies).plan.slot
      ((Forest.grown s.histogram.frequencies).node - 1) ≠ none := by
    rw [Forest.slot_plan, if_pos (Or.inl ⟨by omega, hlast⟩)]
    exact Option.some_ne_none _
  have hleaves := fun byte hbyte => hrenders.leaves_eq h.rates h.leaves (k := byte) hbyte
  constructor
  case holds =>
    rw [hroot]
    exact hrenders.holds hsound hlast hslot h.rates.values_nodup
  case leaf =>
    intro byte hbyte hmem
    have hbyteSlot : (Forest.grown s.histogram.frequencies).plan.slot byte ≠ none := by
      rw [Forest.slot_plan, if_pos (Or.inr ((h.rates.parent_iff hbyte).mpr hmem))]
      exact Option.some_ne_none _
    obtain ⟨p, hp, -⟩ := hrenders.byteNode hsound hbyte hbyteSlot
    refine ⟨p, by rw [hleaves byte hbyte, if_pos hmem, hp], ?_⟩
    -- the way up ends at the root, before the room does
    obtain ⟨root, hrootAddress, hrootNode⟩ := hrenders.present _ _
      (if_pos (Or.inl ⟨by omega, hlast⟩))
    have hparent : (Forest.grown s.histogram.frequencies).parent
        ((Forest.grown s.histogram.frequencies).node - 1) = none :=
      hsound.parent_of_live (hlive ▸ Finset.mem_singleton_self _)
    have hpath := h.rates.path_hufCode hmem
    have hlt := hpath.length_lt
    rw [h.rates.numNodes_eq] at hlt
    have hcard := Forest.card_counted_le s.histogram.frequencies
    have hroom : hufAsciiCount * 2 ≤ huf1kibBuffer := by decide
    have hup := hrenders.toString_path hsound hlast hslot hpath huf1kibBuffer (by omega)
    rw [hp, hrootAddress, hufNodeToString_root _ hrootNode
      (by rw [SlotNode.render, Forest.slotNode, hparent, address_none])] at hup
    rw [hup]
    exact congrArg Except.ok (List.append_nil _)
  case absent =>
    intro byte hbyte hmem
    rw [hleaves byte hbyte, if_neg hmem]
  case allocations => exact hrenders.allocations

end LibHuffman
