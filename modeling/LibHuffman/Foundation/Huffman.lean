/-
# Huffman's construction

The construction works on a pool of weighted trees. A step takes two trees out and
puts a tree that joins them in; the last step puts a node over the tree that is
left. What a pool weighs does not change, and its trees hold one value more after
every step.
-/

import LibHuffman.Foundation.Preorder
import Mathlib.Algebra.BigOperators.Group.Multiset.Basic

namespace LibHuffman.Foundation

variable {α : Type}

/-- Trees with their weights. -/
abbrev Pool (α : Type) : Type := Multiset (ℕ × BinaryTree α)

namespace Pool

/-- The weight of all trees. -/
def weight (pool : Pool α) : ℕ := (pool.map fun entry => entry.1).sum

/-- The values in all trees. -/
def content (pool : Pool α) : Multiset α :=
  (pool.map fun entry => (values entry.2 : Multiset α)).sum

@[simp] theorem weight_cons (entry : ℕ × BinaryTree α) (pool : Pool α) :
    weight (entry ::ₘ pool) = entry.1 + weight pool := by
  rw [weight, Multiset.map_cons, Multiset.sum_cons, weight]

@[simp] theorem content_cons (entry : ℕ × BinaryTree α) (pool : Pool α) :
    content (entry ::ₘ pool) = values entry.2 + content pool := by
  rw [content, Multiset.map_cons, Multiset.sum_cons, content]

theorem content_singleton (entry : ℕ × BinaryTree α) :
    content ({entry} : Pool α) = values entry.2 := by
  rw [content, Multiset.map_singleton, Multiset.sum_singleton]

/-- One step of the construction; the new node gets the value `a`. -/
inductive Merge (a : α) : Pool α → Pool α → Prop
  | pair (first second : ℕ × BinaryTree α) (rest : Pool α) :
      Merge a (first ::ₘ second ::ₘ rest)
        ((first.1 + second.1, .node a first.2 second.2) ::ₘ rest)
  | single (last : ℕ × BinaryTree α) : Merge a {last} {(last.1, .node a last.2 .nil)}

section

variable {a : α} {pool pool' : Pool α}

theorem Merge.weight_eq (h : Merge a pool pool') : weight pool' = weight pool := by
  cases h with
  | pair => simp only [weight_cons, Nat.add_assoc]
  | single => rfl

theorem Merge.content_eq (h : Merge a pool pool') : content pool' = a ::ₘ content pool := by
  cases h with
  | pair first second rest =>
      simp only [content_cons, values, ← Multiset.cons_coe, ← Multiset.coe_add,
        Multiset.cons_add, add_assoc]
  | single last =>
      simp only [content_singleton, values, ← Multiset.cons_coe, List.append_nil]

/-- A step takes one tree out of the pool, except from the last. -/
theorem Merge.card_eq (h : Merge a pool pool') :
    Multiset.card pool' = max 1 (Multiset.card pool - 1) := by
  cases h with
  | pair first second rest =>
      simp only [Multiset.card_cons]
      omega
  | single last => simp

end

end Pool

end LibHuffman.Foundation
