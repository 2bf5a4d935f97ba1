/-
# The leaves of a tree

A binary tree has a depth for each of its leaves, which is the length of the path to
it. The cost of a tree is the sum of these depths, each weighed with its leaf.
-/

import LibHuffman.Foundation.CodeTree
import Mathlib.Algebra.Group.Nat.Defs
import Mathlib.Algebra.BigOperators.Group.List.Basic

namespace LibHuffman.Foundation

variable {α : Type}

/-- The leaves with their depths, from left to right. -/
def leafDepths : BinaryTree α → List (α × ℕ)
  | .nil => []
  | .node a .nil .nil => [(a, 0)]
  | .node _ left right =>
    (leafDepths left ++ leafDepths right).map fun leaf => (leaf.1, leaf.2 + 1)

/-- The values of the leaves, from left to right. -/
def leaves (tree : BinaryTree α) : List α := (leafDepths tree).map Prod.fst

/-- The number of nodes with at least one child. -/
def joints : BinaryTree α → ℕ
  | .nil => 0
  | .node _ .nil .nil => 0
  | .node _ left right => joints left + joints right + 1

/-- The weight of all leaves. -/
def leafWeight (weight : α → ℕ) (tree : BinaryTree α) : ℕ := ((leaves tree).map weight).sum

/-- The sum over all leaves of weight times depth. -/
def cost (weight : α → ℕ) (tree : BinaryTree α) : ℕ :=
  ((leafDepths tree).map fun leaf => weight leaf.1 * leaf.2).sum

section

variable {tree l r : BinaryTree α} {a b : α} {bits : List Bool} (weight : α → ℕ)

/-- A node is a leaf, or has a child. -/
theorem leaf_or_inner (l r : BinaryTree α) : l = .nil ∧ r = .nil ∨ l ≠ .nil ∨ r ≠ .nil := by
  cases l with
  | node => exact Or.inr (Or.inl fun h => nomatch h)
  | nil =>
      cases r with
      | node => exact Or.inr (Or.inr fun h => nomatch h)
      | nil => exact Or.inl ⟨rfl, rfl⟩

theorem leafDepths_node (hchild : l ≠ .nil ∨ r ≠ .nil) :
    leafDepths (.node a l r) =
      (leafDepths l ++ leafDepths r).map fun leaf => (leaf.1, leaf.2 + 1) := by
  rw [leafDepths]
  rintro rfl rfl
  simp at hchild

theorem joints_node (hchild : l ≠ .nil ∨ r ≠ .nil) :
    joints (.node a l r) = joints l + joints r + 1 := by
  rw [joints]
  rintro rfl rfl
  simp at hchild

theorem leaves_node (hchild : l ≠ .nil ∨ r ≠ .nil) :
    leaves (.node a l r) = leaves l ++ leaves r := by
  rw [leaves, leafDepths_node hchild, List.map_map, leaves, leaves, ← List.map_append]
  rfl

@[simp] theorem leaves_leaf (a : α) : leaves (.node a .nil .nil) = [a] := rfl

/-- Every node is a leaf or a joint. -/
theorem numNodes_eq_leaves_add_joints (tree : BinaryTree α) :
    tree.numNodes = (leaves tree).length + joints tree := by
  induction tree with
  | nil => rfl
  | node a l r ihLeft ihRight =>
      rcases leaf_or_inner l r with ⟨rfl, rfl⟩ | hchild
      · rfl
      · rw [leaves_node hchild, joints_node hchild, List.length_append, BinaryTree.numNodes,
          ihLeft, ihRight]
        omega

/-- The leaves are at the ends of the paths. -/
theorem mem_leafDepths_iff {depth : ℕ} :
    (a, depth) ∈ leafDepths tree ↔ ∃ bits, Path tree bits a ∧ bits.length = depth := by
  induction tree generalizing depth with
  | nil =>
      apply Iff.intro
      · intro h
        cases h
      · intro h
        rcases h with ⟨bits, hpath, -⟩
        cases hpath
  | node b l r ihLeft ihRight =>
      rcases leaf_or_inner l r with ⟨rfl, rfl⟩ | hchild
      · apply Iff.intro
        · intro h
          cases List.mem_singleton.mp h
          exact ⟨[], .leaf _, rfl⟩
        · intro h
          rcases h with ⟨bits, hpath, rfl⟩
          cases hpath with
          | leaf => exact List.mem_singleton_self _
          | left hpath => cases hpath
          | right hpath => cases hpath
      · rw [leafDepths_node hchild, List.mem_map]
        apply Iff.intro
        · intro h
          rcases h with ⟨⟨a', depth'⟩, hmem, heq⟩
          cases heq
          rcases List.mem_append.mp hmem with hmem | hmem
          · rcases ihLeft.mp hmem with ⟨bits, hpath, rfl⟩
            exact ⟨false :: bits, .left hpath, rfl⟩
          · rcases ihRight.mp hmem with ⟨bits, hpath, rfl⟩
            exact ⟨true :: bits, .right hpath, rfl⟩
        · intro h
          rcases h with ⟨bits, hpath, rfl⟩
          cases hpath with
          | leaf => simp at hchild
          | left hpath =>
              exact ⟨_, List.mem_append_left _ (ihLeft.mpr ⟨_, hpath, rfl⟩), rfl⟩
          | right hpath =>
              exact ⟨_, List.mem_append_right _ (ihRight.mpr ⟨_, hpath, rfl⟩), rfl⟩

theorem mem_leaves_iff : a ∈ leaves tree ↔ ∃ bits, Path tree bits a := by
  rw [leaves, List.mem_map]
  apply Iff.intro
  · intro h
    rcases h with ⟨⟨a', depth⟩, hmem, rfl⟩
    rcases mem_leafDepths_iff.mp hmem with ⟨bits, hpath, -⟩
    exact ⟨bits, hpath⟩
  · intro h
    rcases h with ⟨bits, hpath⟩
    exact ⟨_, mem_leafDepths_iff.mpr ⟨bits, hpath, rfl⟩, rfl⟩

/-- A path goes through joints only. -/
theorem Path.length_le_joints (h : Path tree bits a) : bits.length ≤ joints tree := by
  induction h with
  | leaf => exact Nat.zero_le _
  | left hpath ih =>
      rw [joints_node (Or.inl hpath.ne_nil), List.length_cons]
      omega
  | right hpath ih =>
      rw [joints_node (Or.inr hpath.ne_nil), List.length_cons]
      omega

/-- No path to a leaf goes on from another leaf. -/
theorem Path.eq_of_prefixed {bits' : List Bool} (h : Path tree bits a) (h' : Path tree bits' b)
    (hpre : bits <+: bits') : bits = bits' ∧ a = b := by
  induction h generalizing bits' with
  | leaf a =>
      cases h' with
      | leaf => exact ⟨rfl, rfl⟩
      | left h' => cases h'
      | right h' => cases h'
  | left h ih =>
      cases h' with
      | leaf => cases h
      | left h' =>
          rw [List.cons_prefix_cons] at hpre
          exact (ih h' hpre.2).imp_left (congrArg _)
      | right h' => simp at hpre
  | right h ih =>
      cases h' with
      | leaf => cases h
      | left h' => simp at hpre
      | right h' =>
          rw [List.cons_prefix_cons] at hpre
          exact (ih h' hpre.2).imp_left (congrArg _)

/-! ## Costs -/

@[simp] theorem cost_leaf (a : α) : cost weight (.node a .nil .nil) = 0 := by
  simp [cost, leafDepths]

theorem leafWeight_node (hchild : l ≠ .nil ∨ r ≠ .nil) :
    leafWeight weight (.node a l r) = leafWeight weight l + leafWeight weight r := by
  rw [leafWeight, leaves_node hchild, List.map_append, List.sum_append, leafWeight, leafWeight]

/-- A node puts all leaves below it one step deeper. -/
theorem cost_node (hchild : l ≠ .nil ∨ r ≠ .nil) :
    cost weight (.node a l r) =
      cost weight l + cost weight r + (leafWeight weight l + leafWeight weight r) := by
  have hdeeper : ∀ xs : List (α × ℕ),
      ((xs.map fun leaf => (leaf.1, leaf.2 + 1)).map fun leaf => weight leaf.1 * leaf.2).sum =
        (xs.map fun leaf => weight leaf.1 * leaf.2).sum +
          ((xs.map Prod.fst).map weight).sum := by
    intro xs
    induction xs with
    | nil => rfl
    | cons leaf xs ih =>
        simp only [List.map_cons, List.sum_cons, ih, Nat.mul_add, Nat.mul_one]
        omega
  rw [cost, leafDepths_node hchild, hdeeper, List.map_append, List.sum_append, ← cost, ← cost,
    List.map_append, List.map_append, List.sum_append]
  rfl

end

end LibHuffman.Foundation
