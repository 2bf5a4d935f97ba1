/-
# Release of a tree

`huf_tree_free` and `huf_tree_reset` release every node of a tree once. The
recursion releases what hangs below a node and leaves the node itself to its
caller. It clears the left pointer of the node twice and the right one never; as
the node is released next, no one follows the stale pointer.
-/

import LibHuffman.Trees.Deserialize

namespace LibHuffman

open Foundation

/-- Between two heaps, the cells of a tree except its root were released, the
root may have changed and everything else is as before. -/
structure ReleasedBelow (pointer : Option ℕ) (cells : List ℕ) (heap heap' : Heap) : Prop where
  released : ∀ p ∈ cells, pointer ≠ some p → heap'.nodes p = none
  outside : ∀ p, p ∉ cells → heap'.nodes p = heap.nodes p
  root : ∀ p, pointer = some p → ∃ node, heap'.nodes p = some node
  next : heap'.next = heap.next
  allocations : heap'.allocations = heap.allocations

/-- Between two heaps, the cells of a tree were released and everything else is
as before. -/
structure Released (cells : List ℕ) (heap heap' : Heap) : Prop where
  released : ∀ p ∈ cells, heap'.nodes p = none
  outside : ∀ p, p ∉ cells → heap'.nodes p = heap.nodes p
  next : heap'.next = heap.next
  allocations : heap'.allocations = heap.allocations

section

variable {heap heap' : Heap} {pointer : Option ℕ} {tree : BinaryTree Int16} {cells : List ℕ}

theorem Heap.free_of_some {p : ℕ} {node : HufNode} (h : heap.nodes p = some node) :
    Heap.free (some p) heap = .ok (.ok (), heap.put p none) := by
  rw [Heap.free, Routine.get_bind_apply, Heap.read_of_some h, Routine.demand_ok_bind_apply,
    Routine.modify_apply]

/-- Releasing the root after what is below it releases the whole tree. -/
theorem ReleasedBelow.free (hat : TreeAt heap pointer tree cells)
    (h : ReleasedBelow pointer cells heap heap') :
    ∃ heap'', Heap.free pointer heap' = .ok (.ok (), heap'') ∧ Released cells heap heap'' := by
  cases pointer with
  | none =>
      refine ⟨heap', rfl, fun p hp => h.released p hp (by simp), h.outside, h.next,
        h.allocations⟩
  | some p =>
      obtain ⟨node, hnode⟩ := h.root p rfl
      have hroot : p ∈ cells := by
        cases hat
        exact List.mem_cons_self
      refine ⟨_, Heap.free_of_some hnode, fun q hq => ?_, fun q hq => ?_, h.next, h.allocations⟩
      · by_cases hqp : q = p
        · rw [hqp, Heap.nodes_put]
        · rw [Heap.nodes_put_of_ne _ _ hqp]
          exact h.released q hq fun heq => hqp (Option.some.inj heq).symm
      · have hqp : q ≠ p := fun hqp => hq (hqp ▸ hroot)
        rw [Heap.nodes_put_of_ne _ _ hqp]
        exact h.outside q hq

/-- Between two heaps, the cells of a child of `p` were released, `p` may have lost
its left pointer and everything else is as before. -/
structure ReleasedChild (p : ℕ) (cells : List ℕ) (heap heap' : Heap) : Prop where
  released : ∀ q ∈ cells, heap'.nodes q = none
  outside : ∀ q, q ∉ cells → q ≠ p → heap'.nodes q = heap.nodes q
  parent : ∀ node, heap.nodes p = some node →
    ∃ node', heap'.nodes p = some node' ∧ node'.right = node.right
  next : heap'.next = heap.next
  allocations : heap'.allocations = heap.allocations

/-- The three statements that release a child, where there is one: as the last
statements of a routine, and followed by others. -/
theorem releaseChild_eq {fuel p : ℕ} {node : HufNode} {child : Option ℕ}
    (hat : TreeAt heap child tree cells) (hnode : heap.nodes p = some node) (hp : p ∉ cells)
    (hbelow : ∃ heap', hufTreeFreeBelow fuel child heap = .ok (.ok (), heap') ∧
      ReleasedBelow child cells heap heap') :
    ∃ heap', ReleasedChild p cells heap heap' ∧
      (if child ≠ none then do
          hufTreeFreeBelow fuel child
          Heap.free child
          Heap.update (some p) fun node => { node with left := none }
        else pure () : CRoutine Heap Unit) heap = .ok (.ok (), heap') ∧
      ∀ rest : Unit → CRoutine Heap Unit,
        (if child ≠ none then do
            hufTreeFreeBelow fuel child
            Heap.free child
            rest (← Heap.update (some p) fun node => { node with left := none })
          else rest () : CRoutine Heap Unit) heap = rest () heap' := by
  by_cases hchild : child = none
  · subst hchild
    cases hat
    exact ⟨heap, ⟨fun _ hq => absurd hq List.not_mem_nil, fun _ _ _ => rfl,
      fun node hnode => ⟨node, hnode, rfl⟩, rfl, rfl⟩, rfl, fun rest => rfl⟩
  · rcases hbelow with ⟨heap₁, hrun₁, hreleased₁⟩
    obtain ⟨heap₂, hrun₂, hreleased₂⟩ := hreleased₁.free hat
    have hnode₂ : heap₂.nodes p = some node := (hreleased₂.outside p hp).trans hnode
    have hrun₃ := Heap.update_of_some hnode₂ fun node => { node with left := none }
    refine ⟨heap₂.put p (some { node with left := none }), ⟨fun q hq => ?_,
      fun q hq hqp => ?_, fun node' hnode' => ?_, hreleased₂.next, hreleased₂.allocations⟩, ?_,
      fun rest => ?_⟩
    · have hqp : q ≠ p := fun hqp => hp (hqp ▸ hq)
      rw [Heap.nodes_put_of_ne _ _ hqp]
      exact hreleased₂.released q hq
    · rw [Heap.nodes_put_of_ne _ _ hqp]
      exact hreleased₂.outside q hq
    · rw [hnode] at hnode'
      cases hnode'
      exact ⟨_, Heap.nodes_put _ _ _, rfl⟩
    · rw [if_pos hchild, Routine.bind_of_ok hrun₁, Routine.bind_of_ok hrun₂, hrun₃]
    · rw [if_pos hchild, Routine.bind_of_ok hrun₁, Routine.bind_of_ok hrun₂,
        Routine.bind_of_ok hrun₃]

/-- The recursion releases everything below the root. -/
theorem hufTreeFreeBelow_eq (hat : TreeAt heap pointer tree cells) (hnodup : cells.Nodup)
    {fuel : ℕ} (hfuel : tree.height < fuel) :
    ∃ heap', hufTreeFreeBelow fuel pointer heap = .ok (.ok (), heap') ∧
      ReleasedBelow pointer cells heap heap' := by
  induction fuel generalizing heap pointer tree cells with
  | zero => exact absurd hfuel (Nat.not_lt_zero _)
  | succ fuel ih =>
      cases hat with
      | absent =>
          exact ⟨heap, rfl, fun _ hq => absurd hq List.not_mem_nil, fun _ _ => rfl,
            fun _ hp => (by cases hp), rfl, rfl⟩
      | @node p node left right lefts rights hnode hleft hright =>
          rw [BinaryTree.height] at hfuel
          obtain ⟨hp, hnodups⟩ := List.nodup_cons.mp hnodup
          obtain ⟨hpLeft, hpRight⟩ := not_or.mp (mt List.mem_append.mpr hp)
          obtain ⟨hnodupLeft, hnodupRight, hdisjoint⟩ := List.nodup_append.mp hnodups
          obtain ⟨heap₁, hreleased₁, -, hrun₁⟩ := releaseChild_eq hleft hnode hpLeft
            (ih hleft hnodupLeft (by omega))
          obtain ⟨node₁, hnode₁, hrightOf⟩ := hreleased₁.parent node hnode
          have hright₁ : TreeAt heap₁ node₁.right right rights := by
            rw [hrightOf]
            refine hright.frame fun q hq => hreleased₁.outside q (fun hq' => ?_) fun hqp => ?_
            · exact hdisjoint q hq' q hq rfl
            · exact hpRight (hqp ▸ hq)
          obtain ⟨heap₂, hreleased₂, hrun₂, -⟩ := releaseChild_eq hright₁ hnode₁ hpRight
            (ih hright₁ hnodupRight (by omega))
          refine ⟨heap₂, ?_, fun q hq hqp => ?_, fun q hq => ?_, ?_, ?_, ?_⟩
          · rw [hufTreeFreeBelow, Routine.get_bind_apply, Heap.read_of_some hnode,
              Routine.demand_ok_bind_apply, hrun₁, Routine.get_bind_apply,
              Heap.read_of_some hnode₁, Routine.demand_ok_bind_apply]
            exact hrun₂
          · have hne : q ≠ p := fun h => hqp (h ▸ rfl)
            rcases List.mem_append.mp ((List.mem_cons.mp hq).resolve_left hne) with hq | hq
            · rw [hreleased₂.outside q (fun hq' => hdisjoint q hq q hq' rfl) hne]
              exact hreleased₁.released q hq
            · exact hreleased₂.released q hq
          · obtain ⟨hne, hq⟩ := not_or.mp (mt List.mem_cons.mpr hq)
            obtain ⟨hqLeft, hqRight⟩ := not_or.mp (mt List.mem_append.mpr hq)
            rw [hreleased₂.outside q hqRight hne, hreleased₁.outside q hqLeft hne]
          · intro q hq
            cases hq
            obtain ⟨node₂, hnode₂, -⟩ := hreleased₂.parent node₁ hnode₁
            exact ⟨node₂, hnode₂⟩
          · rw [hreleased₂.next, hreleased₁.next]
          · rw [hreleased₂.allocations, hreleased₁.allocations]

/-- Releasing a tree that the heap holds releases its cells and nothing else. -/
theorem releaseNodes_eq (h : heap.Holds pointer tree) :
    ∃ heap' cells, releaseNodes pointer heap = .ok (.ok (), heap') ∧
      TreeAt heap pointer tree cells ∧ Released cells heap heap' := by
  have hheight := h.height_le
  rcases h with ⟨cells, hat, hnodup, -⟩
  obtain ⟨heap₁, hrun₁, hreleased₁⟩ :=
    hufTreeFreeBelow_eq hat hnodup (show tree.height < heap.next + 2 by omega)
  obtain ⟨heap₂, hrun₂, hreleased₂⟩ := hreleased₁.free hat
  refine ⟨heap₂, cells, ?_, hat, hreleased₂⟩
  rw [releaseNodes, Routine.get_bind_apply, Routine.bind_of_ok hrun₁, hrun₂]

end

/-- A tree is empty again after a reset. -/
theorem hufTreeReset_eq {s : TreeStore} {tree : BinaryTree Int16}
    (h : s.heap.Holds s.tree.root tree) :
    ∃ heap', hufTreeReset s = .ok (.ok (), ⟨⟨noLeaves, none⟩, heap'⟩) ∧
      heap'.allocations = s.heap.allocations := by
  obtain ⟨heap', cells, hrun, -, hreleased⟩ := releaseNodes_eq h
  refine ⟨heap', ?_, hreleased.allocations⟩
  rw [hufTreeReset, Routine.get_bind_apply, Routine.bind_of_ok (Routine.within_of_ok rfl hrun)]
  rfl

/-- A tree can be released whatever is left of it. -/
theorem hufTreeFree_eq {tree : HufTree} {heap : Heap} {shape : BinaryTree Int16}
    (h : heap.Holds tree.root shape) :
    ∃ heap', hufTreeFree (some tree, heap) = .ok (.ok (), (none, heap')) ∧
      heap'.allocations = heap.allocations := by
  obtain ⟨heap', cells, hrun, -, hreleased⟩ := releaseNodes_eq h
  refine ⟨heap', ?_, hreleased.allocations⟩
  rw [hufTreeFree, Routine.get_bind_apply, deref_some, Routine.demand_ok_bind_apply,
    Routine.bind_of_ok (Routine.within_of_ok rfl hrun)]
  rfl

end LibHuffman
