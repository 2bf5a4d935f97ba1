/-
# Optimal trees

Huffman's construction joins two trees of least weight until one is left. No tree with
the same leaves costs less, and neither does any other assignment of depths that
satisfies Kraft's inequality: a lighter leaf can change places with a deeper one, so
that the two lightest are the deepest, and these can be joined one step higher.
-/

import LibHuffman.Foundation.Huffman
import LibHuffman.Foundation.Leaves
import Mathlib.Algebra.BigOperators.Ring.Multiset
import Mathlib.Algebra.Order.BigOperators.Group.Multiset
import Mathlib.Algebra.Order.Field.Rat
import Mathlib.Tactic.LinearCombination
import Mathlib.Tactic.Linarith
import Mathlib.Tactic.NormNum
import Mathlib.Tactic.Positivity
import Mathlib.Tactic.Ring

namespace LibHuffman.Foundation

variable {α : Type}

/-! ## Kraft's inequality -/

/-- Depths that the leaves of a binary tree can have. -/
def Kraft (depths : Multiset ℕ) : Prop := (depths.map fun d => (1 / 2 : ℚ) ^ d).sum ≤ 1

/-- The sum of depths, each weighed. -/
def weighted (assigned : Multiset (ℕ × ℕ)) : ℕ := (assigned.map fun leaf => leaf.1 * leaf.2).sum

@[simp] theorem weighted_cons (leaf : ℕ × ℕ) (assigned : Multiset (ℕ × ℕ)) :
    weighted (leaf ::ₘ assigned) = leaf.1 * leaf.2 + weighted assigned := by
  rw [weighted, Multiset.map_cons, Multiset.sum_cons, weighted]

theorem two_pow_mul_half_pow (n : ℕ) : (2 : ℚ) ^ n * (1 / 2) ^ n = 1 := by
  rw [← mul_pow]
  norm_num

/-- What leaves take of the whole, in units of a leaf that is no less deep. -/
theorem exists_units {d₂ : ℕ} {depths : Multiset ℕ} (hdepths : ∀ d ∈ depths, d ≤ d₂) :
    ∃ units : ℕ, (depths.map fun d => (1 / 2 : ℚ) ^ d).sum = units * (1 / 2) ^ d₂ := by
  induction depths using Multiset.induction_on with
  | empty => exact ⟨0, by simp⟩
  | cons d depths ih =>
      obtain ⟨units, hunits⟩ := ih fun d hd => hdepths d (Multiset.mem_cons_of_mem hd)
      obtain ⟨more, rfl⟩ := Nat.exists_eq_add_of_le (hdepths d (Multiset.mem_cons_self d depths))
      refine ⟨2 ^ more + units, ?_⟩
      rw [Multiset.map_cons, Multiset.sum_cons, hunits, pow_add]
      push_cast
      linear_combination (-(1 / 2 : ℚ) ^ d) * two_pow_mul_half_pow more

/-- The two deepest leaves can be replaced with one leaf a step above the second. -/
theorem Kraft.merge {d₁ d₂ : ℕ} {depths : Multiset ℕ} (h : Kraft (d₁ ::ₘ d₂ ::ₘ depths))
    (hdepths : ∀ d ∈ depths, d ≤ d₂) : 0 < d₂ ∧ Kraft ((d₂ - 1) ::ₘ depths) := by
  obtain ⟨units, hunits⟩ := exists_units hdepths
  have hpos₁ : (0 : ℚ) < (1 / 2) ^ d₁ := by positivity
  have hpos₂ : (0 : ℚ) < (1 / 2) ^ d₂ := by positivity
  have hwhole := two_pow_mul_half_pow d₂
  rw [Kraft, Multiset.map_cons, Multiset.sum_cons, Multiset.map_cons, Multiset.sum_cons,
    hunits] at h
  have hroom : units + 1 < 2 ^ d₂ := by
    have hlt : ((units : ℚ) + 1) * (1 / 2) ^ d₂ < 2 ^ d₂ * (1 / 2) ^ d₂ := by linarith
    have hlt' := lt_of_mul_lt_mul_right hlt hpos₂.le
    exact_mod_cast hlt'
  cases d₂ with
  | zero => simp at hroom
  | succ d =>
      refine ⟨Nat.succ_pos d, ?_⟩
      have hle : ((units : ℚ) + 2) * (1 / 2) ^ (d + 1) ≤ 2 ^ (d + 1) * (1 / 2) ^ (d + 1) := by
        apply mul_le_mul_of_nonneg_right _ hpos₂.le
        exact_mod_cast hroom
      rw [hwhole, pow_succ] at hle
      rw [Kraft, Multiset.map_cons, Multiset.sum_cons, hunits, Nat.add_sub_cancel, pow_succ]
      linarith

/-- The leaves of every tree satisfy the inequality. -/
theorem kraft_leafDepths (tree : BinaryTree α) :
    Kraft ((leafDepths tree).map Prod.snd : Multiset ℕ) := by
  have hdeeper : ∀ xs : List (α × ℕ),
      (((xs.map fun leaf => (leaf.1, leaf.2 + 1)).map Prod.snd).map fun d => (1 / 2 : ℚ) ^ d).sum =
        ((xs.map Prod.snd).map fun d => (1 / 2 : ℚ) ^ d).sum / 2 := by
    intro xs
    induction xs with
    | nil => simp
    | cons leaf xs ih =>
        simp only [List.map_cons, List.sum_cons, ih, pow_succ]
        ring
  rw [Kraft, Multiset.map_coe, Multiset.sum_coe]
  induction tree with
  | nil => simp [leafDepths]
  | node a l r ihLeft ihRight =>
      rcases leaf_or_inner l r with ⟨rfl, rfl⟩ | hchild
      · simp [leafDepths]
      · rw [leafDepths_node hchild, hdeeper, List.map_append, List.map_append, List.sum_append]
        linarith

/-! ## The exchange -/

/-- A leaf that no other is lighter than can change places with the deepest one. -/
theorem exists_deepest (weight depth : ℕ) {assigned : Multiset (ℕ × ℕ)}
    (hleast : ∀ leaf ∈ assigned, weight ≤ leaf.1) :
    ∃ depth' assigned', assigned'.map Prod.fst = assigned.map Prod.fst ∧
      depth' ::ₘ assigned'.map Prod.snd = depth ::ₘ assigned.map Prod.snd ∧
      (∀ leaf ∈ assigned', leaf.2 ≤ depth') ∧
      weight * depth' + weighted assigned' ≤ weight * depth + weighted assigned := by
  induction assigned using Multiset.induction_on with
  | empty => exact ⟨depth, 0, rfl, rfl, fun leaf h => absurd h (Multiset.notMem_zero leaf), le_rfl⟩
  | cons leaf assigned ih =>
      rcases leaf with ⟨w, d⟩
      have hw : weight ≤ w := hleast _ (Multiset.mem_cons_self _ _)
      obtain ⟨depth', assigned', hfst, hsnd, hdeepest, hle⟩ :=
        ih fun leaf h => hleast leaf (Multiset.mem_cons_of_mem h)
      by_cases hd : d ≤ depth'
      · refine ⟨depth', (w, d) ::ₘ assigned', ?_, ?_, ?_, ?_⟩
        · rw [Multiset.map_cons, Multiset.map_cons, hfst]
        · rw [Multiset.map_cons, Multiset.map_cons, Multiset.cons_swap, hsnd, Multiset.cons_swap]
        · intro leaf h
          rcases Multiset.mem_cons.mp h with rfl | h
          · exact hd
          · exact hdeepest leaf h
        · rw [weighted_cons, weighted_cons]
          omega
      · -- the two change places
        refine ⟨d, (w, depth') ::ₘ assigned', ?_, ?_, ?_, ?_⟩
        · rw [Multiset.map_cons, Multiset.map_cons, hfst]
        · rw [Multiset.map_cons, Multiset.map_cons, hsnd, Multiset.cons_swap]
        · intro leaf h
          rcases Multiset.mem_cons.mp h with rfl | h
          · exact Nat.le_of_lt (Nat.not_le.mp hd)
          · exact Nat.le_trans (hdeepest leaf h) (Nat.le_of_lt (Nat.not_le.mp hd))
        · obtain ⟨more, rfl⟩ := Nat.exists_eq_add_of_lt (Nat.not_le.mp hd)
          obtain ⟨heavier, rfl⟩ := Nat.exists_eq_add_of_le hw
          rw [weighted_cons, weighted_cons]
          nlinarith

/-- A leaf of some weight, and the others. -/
theorem exists_leaf {weight : ℕ} {assigned : Multiset (ℕ × ℕ)} {weights : Multiset ℕ}
    (h : assigned.map Prod.fst = weight ::ₘ weights) :
    ∃ depth rest, assigned = (weight, depth) ::ₘ rest ∧ rest.map Prod.fst = weights := by
  obtain ⟨⟨w, depth⟩, hmem, rfl, hrest⟩ := (Multiset.map_eq_cons _ _ _ _).mpr h
  exact ⟨depth, _, (Multiset.cons_erase hmem).symm, hrest⟩

/-- Two leaves that no other is lighter than can be joined, whatever the depths are; that
costs no more than they did. -/
theorem exists_joined {first second d₁ d₂ : ℕ} {assigned : Multiset (ℕ × ℕ)}
    (hle : first ≤ second) (hleast : ∀ leaf ∈ assigned, second ≤ leaf.1)
    (hkraft : Kraft (d₁ ::ₘ d₂ ::ₘ assigned.map Prod.snd)) :
    ∃ depth joined, joined.map Prod.fst = assigned.map Prod.fst ∧
      Kraft (depth ::ₘ joined.map Prod.snd) ∧
      (first + second) * (depth + 1) + weighted joined ≤
        first * d₁ + (second * d₂ + weighted assigned) := by
  have hleast₁ : ∀ leaf ∈ (second, d₂) ::ₘ assigned, first ≤ leaf.1 := by
    intro leaf h
    rcases Multiset.mem_cons.mp h with rfl | h
    · exact hle
    · exact Nat.le_trans hle (hleast leaf h)
  -- the lighter leaf becomes the deepest of all, the other one the deepest of the rest
  obtain ⟨top, others, hfst, hsnd, hdeepest, hcost⟩ :=
    exists_deepest first d₁ hleast₁
  rw [Multiset.map_cons] at hfst hsnd
  obtain ⟨d₂', rest, rfl, hrest⟩ := exists_leaf hfst
  have hleast' : ∀ leaf ∈ rest, second ≤ leaf.1 := by
    intro leaf h
    have hmem := Multiset.mem_map_of_mem Prod.fst h
    rw [hrest, Multiset.mem_map] at hmem
    rcases hmem with ⟨leaf', h', heq⟩
    exact heq ▸ hleast leaf' h'
  obtain ⟨depth, joined, hfst', hsnd', hdeepest', hcost'⟩ := exists_deepest second d₂' hleast'
  rw [Multiset.map_cons, ← hsnd'] at hsnd
  rw [← hsnd] at hkraft
  obtain ⟨hpos, hkraft'⟩ := hkraft.merge (by
    intro d hd
    rcases Multiset.mem_map.mp hd with ⟨leaf, h, rfl⟩
    exact hdeepest' leaf h)
  have hdepth : depth ≤ top := by
    have hmem : depth ∈ d₂' ::ₘ rest.map Prod.snd := hsnd' ▸ Multiset.mem_cons_self _ _
    rcases Multiset.mem_cons.mp hmem with rfl | hmem
    · exact hdeepest _ (Multiset.mem_cons_self _ _)
    · rcases Multiset.mem_map.mp hmem with ⟨leaf, h, rfl⟩
      exact hdeepest leaf (Multiset.mem_cons_of_mem h)
  refine ⟨depth - 1, joined, hfst'.trans hrest, hkraft', ?_⟩
  have hfirst : first * depth ≤ first * top := Nat.mul_le_mul_left first hdepth
  rw [weighted_cons, weighted_cons] at hcost
  dsimp only at hcost
  rw [Nat.sub_add_cancel hpos, Nat.add_mul]
  omega

/-! ## Huffman's construction -/

namespace Pool

/-- Two trees of least weight are joined until one is left. -/
inductive Builds : Pool α → BinaryTree α → Prop
  | last (weight : ℕ) (tree : BinaryTree α) : Builds {(weight, tree)} tree
  | merge {a : α} {first second : ℕ × BinaryTree α} {rest : Pool α} {tree : BinaryTree α}
      (hle : first.1 ≤ second.1) (hleast : ∀ entry ∈ rest, second.1 ≤ entry.1)
      (hlater : Builds ((first.1 + second.1, .node a first.2 second.2) ::ₘ rest) tree) :
      Builds (first ::ₘ second ::ₘ rest) tree

/-- The trees are not empty, and their weights are those of their leaves. -/
def Weighs (weight : α → ℕ) (pool : Pool α) : Prop :=
  ∀ entry ∈ pool, entry.2 ≠ .nil ∧ entry.1 = leafWeight weight entry.2

section

variable {weight : α → ℕ} {pool rest : Pool α} {first second : ℕ × BinaryTree α}
  {tree : BinaryTree α} {a : α}

/-- Joining two trees keeps the weights. -/
theorem Weighs.merge (h : Weighs weight (first ::ₘ second ::ₘ rest)) :
    Weighs weight ((first.1 + second.1, .node a first.2 second.2) ::ₘ rest) := by
  have hfirst := h first (Multiset.mem_cons_self _ _)
  have hsecond := h second (Multiset.mem_cons_of_mem (Multiset.mem_cons_self _ _))
  intro entry hentry
  rcases Multiset.mem_cons.mp hentry with rfl | hentry
  · refine ⟨fun hnil => (nomatch hnil), ?_⟩
    rw [leafWeight_node weight (Or.inl hfirst.1), ← hfirst.2, ← hsecond.2]
  · exact h entry (Multiset.mem_cons_of_mem (Multiset.mem_cons_of_mem hentry))

/-- The leaves of the tree are those of the pool. -/
theorem Builds.leaves_eq (h : Builds pool tree) (hweighs : Weighs weight pool) :
    (leaves tree : Multiset α) = (pool.map fun entry => (leaves entry.2 : Multiset α)).sum := by
  induction h with
  | last => simp
  | @merge a first second rest tree hle hleast hlater ih =>
      have hfirst := hweighs first (Multiset.mem_cons_self _ _)
      rw [ih hweighs.merge]
      simp only [Multiset.map_cons, Multiset.sum_cons, leaves_node (Or.inl hfirst.1),
        ← Multiset.coe_add, add_assoc]

/-- What the construction adds to the costs of the trees in the pool is no more than the
weights of these trees cost at any depths that satisfy Kraft's inequality. -/
theorem Builds.cost_le (h : Builds pool tree) (hweighs : Weighs weight pool)
    (assigned : Multiset (ℕ × ℕ)) (hfst : assigned.map Prod.fst = pool.map Prod.fst)
    (hkraft : Kraft (assigned.map Prod.snd)) :
    cost weight tree ≤
      weighted assigned + (pool.map fun entry => cost weight entry.2).sum := by
  induction h generalizing assigned with
  | last => simp
  | @merge a first second rest tree hle hleast hlater ih =>
      have hfirst := hweighs first (Multiset.mem_cons_self _ _)
      have hsecond := hweighs second (Multiset.mem_cons_of_mem (Multiset.mem_cons_self _ _))
      rw [Multiset.map_cons, Multiset.map_cons] at hfst
      obtain ⟨d₁, assigned, rfl, hfst'⟩ := exists_leaf hfst
      obtain ⟨d₂, assigned, rfl, hfst''⟩ := exists_leaf hfst'
      rw [Multiset.map_cons, Multiset.map_cons] at hkraft
      have hleast' : ∀ leaf ∈ assigned, second.1 ≤ leaf.1 := by
        intro leaf h
        have hmem := Multiset.mem_map_of_mem Prod.fst h
        rw [hfst'', Multiset.mem_map] at hmem
        rcases hmem with ⟨entry, hentry, heq⟩
        exact heq ▸ hleast entry hentry
      obtain ⟨depth, joined, hjoined, hkraft', hcost⟩ := exists_joined hle hleast' hkraft
      have hih := ih hweighs.merge ((first.1 + second.1, depth) ::ₘ joined)
        (by rw [Multiset.map_cons, Multiset.map_cons, hjoined, hfst''])
        (by rwa [Multiset.map_cons])
      rw [weighted_cons, Multiset.map_cons, Multiset.sum_cons,
        cost_node weight (Or.inl hfirst.1), ← hfirst.2, ← hsecond.2] at hih
      rw [Nat.mul_add, Nat.mul_one] at hcost
      rw [weighted_cons, weighted_cons, Multiset.map_cons, Multiset.sum_cons, Multiset.map_cons,
        Multiset.sum_cons]
      dsimp only at hih hcost ⊢
      omega

end

/-- One leaf for each of some values. -/
def ofLeaves (weight : α → ℕ) (values : Finset α) : Pool α :=
  values.val.map fun a => (weight a, .node a .nil .nil)

section

variable {weight : α → ℕ} {values : Finset α} {tree : BinaryTree α}

theorem weighs_ofLeaves (weight : α → ℕ) (values : Finset α) :
    Weighs weight (ofLeaves weight values) := by
  intro entry h
  rcases Multiset.mem_map.mp h with ⟨a, -, rfl⟩
  exact ⟨fun hnil => (nomatch hnil), by simp [leafWeight]⟩

/-- The leaves of the tree that is built from leaves. -/
theorem Builds.leaves_ofLeaves (h : Builds (ofLeaves weight values) tree) :
    (leaves tree : Multiset α) = values.val := by
  rw [h.leaves_eq (weighs_ofLeaves weight values), ofLeaves, Multiset.map_map]
  exact Multiset.sum_map_singleton values.val

/-- Depths that satisfy Kraft's inequality cost no less than the tree that is built. -/
theorem Builds.cost_le_depths (h : Builds (ofLeaves weight values) tree) (depth : α → ℕ)
    (hkraft : Kraft (values.val.map depth)) :
    cost weight tree ≤ (values.val.map fun a => weight a * depth a).sum := by
  have hcost := h.cost_le (weighs_ofLeaves weight values)
    (values.val.map fun a => (weight a, depth a))
    (by rw [ofLeaves, Multiset.map_map, Multiset.map_map]; rfl)
    (by rw [Multiset.map_map]; exact hkraft)
  rw [ofLeaves, Multiset.map_map, weighted, Multiset.map_map] at hcost
  simpa using hcost

/-- The tree that is built from leaves costs no more than any other tree with these
leaves. -/
theorem Builds.optimal (h : Builds (ofLeaves weight values) tree) {other : BinaryTree α}
    (hother : (leaves other : Multiset α) = values.val) : cost weight tree ≤ cost weight other := by
  have hcost := h.cost_le (weighs_ofLeaves weight values)
    ((leafDepths other : Multiset (α × ℕ)).map fun leaf => (weight leaf.1, leaf.2))
    (by
      rw [ofLeaves, ← hother, leaves, Multiset.map_map, Multiset.map_map, ← Multiset.map_coe,
        Multiset.map_map]
      rfl)
    (by rw [Multiset.map_map]; exact kraft_leafDepths other)
  rw [ofLeaves, Multiset.map_map, weighted, Multiset.map_map] at hcost
  have hsum : cost weight tree ≤
      ((leafDepths other).map fun leaf => weight leaf.1 * leaf.2).sum := by
    simpa using hcost
  exact hsum

end

end Pool

end LibHuffman.Foundation
