/-
# Trees in the heap

`TreeAt` says which tree hangs at a pointer, and lists the addresses of its nodes
in preorder. The list is what the rest of the heap is separated from: a change
outside of it leaves the tree as it is, and a tree whose list has no duplicates
can be released. A heap whose trees satisfy `Holds` bounds every chain of
children by its next address.
-/

import LibHuffman.Foundation.Preorder
import LibHuffman.Model.Tree
import Mathlib.Data.List.Perm.Subperm
import Mathlib.Data.List.Range

namespace LibHuffman

open Foundation

/-! ## The heap -/

section

variable {heap : Heap} {p q : ℕ} {node : HufNode}

@[simp] theorem Heap.nodes_put (heap : Heap) (p : ℕ) (node : Option HufNode) :
    (heap.put p node).nodes p = node := if_pos rfl

theorem Heap.nodes_put_of_ne (heap : Heap) (node : Option HufNode) (h : q ≠ p) :
    (heap.put p node).nodes q = heap.nodes q := if_neg h

theorem Heap.read_of_some (h : heap.nodes p = some node) : heap.read p = .ok node := by
  rw [Heap.read, h]

theorem Heap.update_of_some (h : heap.nodes p = some node) (change : HufNode → HufNode) :
    Heap.update (some p) change heap = .ok (.ok (), heap.put p (some (change node))) := by
  rw [Heap.update, deref_some, Routine.demand_ok_bind_apply, Routine.get_bind_apply,
    Heap.read_of_some h, Routine.demand_ok_bind_apply, Routine.modify_apply]

/-- The heap after the allocation of a node. -/
def Heap.extend (heap : Heap) : Heap where
  nodes := (heap.put heap.next (some ⟨0, none, none, none⟩)).nodes
  next := heap.next + 1
  allocations := heap.allocations

theorem Heap.mallocNode_eq (h : heap.allocations = []) :
    Heap.mallocNode heap = .ok (.ok heap.next, heap.extend) := by
  have hmalloc : Routine.within Heap.allocator hufMalloc heap =
      (.ok (.ok (), heap) : Outcome Fault HufError Heap Unit) := by
    have hrun : hufMalloc heap.allocations = .ok (.ok (), heap.allocations) := by
      rw [h]
      rfl
    exact Routine.within_of_ok rfl hrun
  rw [Heap.mallocNode, Routine.bind_of_ok hmalloc]
  rfl

end

/-! ## Trees -/

/-- The tree at a pointer and the addresses of its nodes in preorder. -/
inductive TreeAt (heap : Heap) : Option ℕ → BinaryTree Int16 → List ℕ → Prop
  | absent : TreeAt heap none .nil []
  | node {p : ℕ} {node : HufNode} {left right : BinaryTree Int16} {lefts rights : List ℕ}
      (hnode : heap.nodes p = some node) (hleft : TreeAt heap node.left left lefts)
      (hright : TreeAt heap node.right right rights) :
      TreeAt heap (some p) (.node node.index left right) (p :: (lefts ++ rights))

/-- The heap holds a tree at a pointer, with nodes of its own for every part of
it, all of them allocated before. -/
def Heap.Holds (heap : Heap) (pointer : Option ℕ) (tree : BinaryTree Int16) : Prop :=
  ∃ cells, TreeAt heap pointer tree cells ∧ cells.Nodup ∧ ∀ p ∈ cells, p < heap.next

section

variable {heap heap' : Heap} {pointer : Option ℕ} {tree : BinaryTree Int16} {cells : List ℕ}

/-- A change outside of a tree leaves it as it is. -/
theorem TreeAt.frame (h : TreeAt heap pointer tree cells)
    (hsame : ∀ p ∈ cells, heap'.nodes p = heap.nodes p) : TreeAt heap' pointer tree cells := by
  induction h with
  | absent => exact .absent
  | node hnode _ _ ihLeft ihRight =>
      refine .node ((hsame _ List.mem_cons_self).trans hnode) (ihLeft fun p hp => hsame p ?_)
        (ihRight fun p hp => hsame p ?_)
      · exact List.mem_cons_of_mem _ (List.mem_append_left _ hp)
      · exact List.mem_cons_of_mem _ (List.mem_append_right _ hp)

theorem TreeAt.length_cells (h : TreeAt heap pointer tree cells) :
    cells.length = tree.numNodes := by
  induction h with
  | absent => rfl
  | node _ _ _ ihLeft ihRight =>
      simp [ihLeft, ihRight, BinaryTree.numNodes]

theorem TreeAt.pointer_eq_none_iff (h : TreeAt heap pointer tree cells) :
    pointer = none ↔ tree = .nil := by
  cases h with
  | absent => exact ⟨fun _ => rfl, fun _ => rfl⟩
  | node => simp

/-- The tree at a pointer is determined. -/
theorem TreeAt.unique {tree' : BinaryTree Int16} {cells' : List ℕ}
    (h : TreeAt heap pointer tree cells) (h' : TreeAt heap pointer tree' cells') :
    tree = tree' ∧ cells = cells' := by
  induction h generalizing tree' cells' with
  | absent =>
      cases h'
      exact ⟨rfl, rfl⟩
  | node hnode _ _ ihLeft ihRight =>
      cases h' with
      | node hnode' hleft hright =>
          rw [hnode] at hnode'
          cases hnode'
          obtain ⟨rfl, rfl⟩ := ihLeft hleft
          obtain ⟨rfl, rfl⟩ := ihRight hright
          exact ⟨rfl, rfl⟩

/-- Distinct addresses below a bound are no more than the bound. -/
theorem length_le_of_nodup_of_lt {n : ℕ} {ps : List ℕ} (hnodup : ps.Nodup)
    (hlt : ∀ p ∈ ps, p < n) : ps.length ≤ n := by
  have hsubset : ps ⊆ List.range n := fun p hp => List.mem_range.mpr (hlt p hp)
  have := (List.subperm_of_subset hnodup hsubset).length_le
  rwa [List.length_range] at this

theorem Heap.Holds.height_le (h : heap.Holds pointer tree) : tree.height ≤ heap.next := by
  rcases h with ⟨cells, hat, hnodup, hlt⟩
  have hlen := length_le_of_nodup_of_lt hnodup hlt
  rw [hat.length_cells] at hlen
  exact Nat.le_trans tree.height_le_numNodes hlen

theorem Heap.holds_none (heap : Heap) : heap.Holds none .nil :=
  ⟨[], .absent, List.nodup_nil, fun _ hp => absurd hp List.not_mem_nil⟩

end

/-! ## Serialization -/

section

variable {α : Type} {block block' : List α}

theorem store_eq_memcpy (block : List α) (i : ℕ) (a : α) :
    store block i a = memcpy block i [a] := by
  by_cases h : i < block.length
  · rw [store_of_lt h, memcpy_of_le (by simp only [List.length_singleton]; omega),
      List.set_eq_take_append_cons_drop, if_pos h]
    simp
  · rw [store, if_neg h, memcpy_of_lt (by simp only [List.length_singleton]; omega)]

/-- Two adjacent copies are one copy. -/
theorem memcpy_append (block : List α) (offset : ℕ) (xs ys : List α) :
    memcpy block offset (xs ++ ys) =
      memcpy block offset xs >>= fun block' => memcpy block' (offset + xs.length) ys := by
  by_cases hxs : offset + xs.length ≤ block.length
  · have htake : (block.take offset ++ xs).length = offset + xs.length := by
      simp only [List.length_append, List.length_take]
      omega
    have hlen : (block.take offset ++ xs ++ block.drop (offset + xs.length)).length =
        block.length := by
      simp only [List.length_append, htake, List.length_drop]
      omega
    rw [memcpy_of_le hxs]
    show _ = memcpy (block.take offset ++ xs ++ block.drop (offset + xs.length)) _ ys
    by_cases hys : offset + xs.length + ys.length ≤ block.length
    · have hdrop : (block.take offset ++ xs ++ block.drop (offset + xs.length)).drop
          (offset + xs.length + ys.length) = block.drop (offset + xs.length + ys.length) := by
        rw [← List.drop_drop, List.drop_left' htake, List.drop_drop]
      rw [memcpy_of_le (by simp only [List.length_append]; omega), memcpy_of_le (by omega),
        List.take_left' htake, hdrop, List.length_append, Nat.add_assoc]
      simp only [List.append_assoc]
    · rw [memcpy_of_lt (by simp only [List.length_append]; omega), memcpy_of_lt (by omega)]
  · rw [memcpy_of_lt (by simp only [List.length_append]; omega), memcpy_of_lt (by omega)]
    rfl

end

section

variable {heap : Heap} {pointer : Option ℕ} {tree : BinaryTree Int16} {cells : List ℕ}

/-- Serialization copies the preorder of the tree to the buffer, or runs past its
end. -/
theorem hufSerializeTree_eq (h : TreeAt heap pointer tree cells) {fuel : ℕ}
    (hfuel : tree.height < fuel) (buf : List Int16) (pos : ℕ) :
    hufSerializeTree heap fuel pointer buf pos =
      (memcpy buf pos (preorder hufLeafNode tree)).map fun buf' =>
        (buf', (preorder hufLeafNode tree).length) := by
  induction h generalizing fuel buf pos with
  | absent =>
      obtain ⟨fuel, rfl⟩ : ∃ n, fuel = n + 1 := ⟨fuel - 1, by omega⟩
      rw [hufSerializeTree, store_eq_memcpy, preorder]
      cases memcpy buf pos [hufLeafNode] <;> rfl
  | @node p node left right lefts rights hnode hleft hright ihLeft ihRight =>
      obtain ⟨fuel, rfl⟩ : ∃ n, fuel = n + 1 := ⟨fuel - 1, by omega⟩
      rw [BinaryTree.height] at hfuel
      have hread : heap.read p = .ok node := by rw [Heap.read, hnode]
      rw [hufSerializeTree, hread, preorder, ← List.singleton_append, memcpy_append,
        ← store_eq_memcpy]
      cases hstore : store buf pos node.index with
      | error fault => simp [hstore, Bind.bind, Except.bind, Except.map]
      | ok buf₁ =>
          simp only [hstore, Bind.bind, Except.bind]
          rw [ihLeft (by omega), memcpy_append, List.length_singleton]
          cases hcopy : memcpy buf₁ (pos + 1) (preorder hufLeafNode left) with
          | error fault => rfl
          | ok buf₂ =>
              simp only [Except.map, Bind.bind, Except.bind]
              rw [ihRight (by omega)]
              cases memcpy buf₂ (pos + 1 + (preorder hufLeafNode left).length)
                (preorder hufLeafNode right) with
              | error fault => rfl
              | ok buf₃ =>
                  simp only [Except.map, Pure.pure, Except.pure, List.length_append,
                    List.length_singleton]
                  congr 2
                  omega

end

/-- Serialization does not change the length of the buffer. -/
theorem length_hufSerializeTree {heap : Heap} {fuel : ℕ} {pointer : Option ℕ}
    {buf buf' : List Int16} {pos n : ℕ}
    (h : hufSerializeTree heap fuel pointer buf pos = .ok (buf', n)) :
    buf'.length = buf.length := by
  induction fuel generalizing pointer buf buf' pos n with
  | zero => cases h
  | succ fuel ih =>
      cases pointer with
      | none =>
          rw [hufSerializeTree] at h
          rcases Routine.except_bind_eq_ok h with ⟨stored, hstore, h⟩
          cases h
          exact length_store hstore
      | some p =>
          rw [hufSerializeTree] at h
          rcases Routine.except_bind_eq_ok h with ⟨node, -, h⟩
          rcases Routine.except_bind_eq_ok h with ⟨stored, hstore, h⟩
          rcases Routine.except_bind_eq_ok h with ⟨left, hleft, h⟩
          rcases Routine.except_bind_eq_ok h with ⟨right, hright, h⟩
          cases h
          exact (ih hright).trans ((ih hleft).trans (length_store hstore))

theorem length_hufTreeSerialize {t : TreeStore} {buf buf' : List Int16} {n : ℕ}
    (h : hufTreeSerialize t buf = .ok (buf', n)) : buf'.length = buf.length :=
  length_hufSerializeTree h

end LibHuffman
