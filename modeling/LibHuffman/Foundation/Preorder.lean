/-
# Binary trees as lists

A tree is stored in preorder, with a marker for every absent child. Reading takes
a tree from the front of a list and returns what follows it; a list that ends too
early stands for absent children only, so every list can be read.
-/

import Mathlib.Algebra.Order.Ring.Int
import Mathlib.Data.List.Count
import Mathlib.Data.Tree.Basic
import Mathlib.Tactic.Common

namespace LibHuffman.Foundation

variable {α : Type}

/-- The values of a tree in preorder. -/
def values : BinaryTree α → List α
  | .nil => []
  | .node a left right => a :: (values left ++ values right)

/-- The values of a tree in preorder, and the marker for every absent child. -/
def preorder (marker : α) : BinaryTree α → List α
  | .nil => [marker]
  | .node a left right => a :: (preorder marker left ++ preorder marker right)

section

variable [DecidableEq α]

/-- Read a tree from the front of a list, with a bound on its height. -/
def readPreorder (marker : α) : ℕ → List α → BinaryTree α × List α
  | 0, xs => (.nil, xs)
  | _ + 1, [] => (.nil, [])
  | fuel + 1, x :: xs =>
    if x = marker then (.nil, xs)
    else
      let (left, ys) := readPreorder marker fuel xs
      let (right, zs) := readPreorder marker fuel ys
      (.node x left right, zs)

/-- The tree that a list begins with. -/
def denotedTree (marker : α) (xs : List α) : BinaryTree α :=
  (readPreorder marker (xs.length + 1) xs).1

/-- The places for a child that a beginning of a preorder leaves open. One is open at
first; every value fills one and opens two, and every marker fills one. -/
def openPlaces (marker : α) (xs : List α) : ℤ := 1 + xs.length - 2 * xs.count marker

/-- A reading takes the shortest beginning of a list that leaves no place open, or the
whole list, with places that are missing at its end. -/
structure Takes (marker : α) (xs : List α) (taken missing : ℕ) : Prop where
  le : taken ≤ xs.length
  openPlaces_eq : openPlaces marker (xs.take taken) = missing
  open_before : ∀ n < taken, 0 < openPlaces marker (xs.take n)
  all_taken : missing ≠ 0 → taken = xs.length

end

@[simp] theorem length_values (tree : BinaryTree α) : (values tree).length = tree.numNodes := by
  induction tree with
  | nil => rfl
  | node a left right ihLeft ihRight =>
      simp [values, ihLeft, ihRight, BinaryTree.numNodes]

@[simp] theorem length_preorder (marker : α) (tree : BinaryTree α) :
    (preorder marker tree).length = 2 * tree.numNodes + 1 := by
  induction tree with
  | nil => rfl
  | node a left right ihLeft ihRight =>
      simp only [preorder, List.length_cons, List.length_append, ihLeft, ihRight,
        BinaryTree.numNodes]
      omega

section

variable [DecidableEq α] {marker : α}

/-- Reading takes at least one element for every node. -/
theorem readPreorder_length (marker : α) (fuel : ℕ) (xs : List α) :
    (readPreorder marker fuel xs).1.numNodes + (readPreorder marker fuel xs).2.length ≤
      xs.length := by
  induction fuel generalizing xs with
  | zero => simp [readPreorder]
  | succ fuel ih =>
      cases xs with
      | nil => simp [readPreorder]
      | cons x xs =>
          rw [readPreorder]
          split
          · simp
          · have hleft := ih xs
            have hright := ih (readPreorder marker fuel xs).2
            simp only [BinaryTree.numNodes, List.length_cons]
            omega

theorem numNodes_denotedTree_le (marker : α) (xs : List α) :
    (denotedTree marker xs).numNodes ≤ xs.length :=
  Nat.le_trans (Nat.le_add_right _ _) (readPreorder_length marker _ xs)

/-- Reading takes back a tree in preorder and leaves what follows it. -/
theorem readPreorder_preorder {tree : BinaryTree α} (hmarker : marker ∉ values tree)
    {fuel : ℕ} (hfuel : tree.height < fuel) (rest : List α) :
    readPreorder marker fuel (preorder marker tree ++ rest) = (tree, rest) := by
  induction tree generalizing fuel rest with
  | nil =>
      obtain ⟨fuel, rfl⟩ : ∃ n, fuel = n + 1 := ⟨fuel - 1, by omega⟩
      rw [preorder, List.singleton_append, readPreorder, if_pos rfl]
  | node a left right ihLeft ihRight =>
      obtain ⟨fuel, rfl⟩ : ∃ n, fuel = n + 1 := ⟨fuel - 1, by omega⟩
      rw [BinaryTree.height] at hfuel
      rw [values, List.mem_cons, List.mem_append, not_or, not_or] at hmarker
      rcases hmarker with ⟨hroot, hleft, hright⟩
      rw [preorder, List.cons_append, List.append_assoc, readPreorder, if_neg (Ne.symm hroot),
        ihLeft hleft (by omega)]
      show (BinaryTree.node a left (readPreorder marker fuel _).1, _) = _
      rw [ihRight hright (by omega)]

theorem denotedTree_preorder {tree : BinaryTree α} (hmarker : marker ∉ values tree) :
    denotedTree marker (preorder marker tree) = tree := by
  have hheight := tree.height_le_numNodes
  have hfuel : tree.height < (preorder marker tree).length + 1 := by
    rw [length_preorder]
    omega
  have hread := readPreorder_preorder hmarker hfuel []
  rw [List.append_nil] at hread
  rw [denotedTree, hread]

/-! ## What a reading takes -/

@[simp] theorem openPlaces_nil (marker : α) : openPlaces marker [] = 1 := rfl

theorem openPlaces_cons_self (marker : α) (xs : List α) :
    openPlaces marker (marker :: xs) = openPlaces marker xs - 1 := by
  simp only [openPlaces, List.length_cons, List.count_cons_self]
  omega

theorem openPlaces_cons_of_ne {x : α} (h : x ≠ marker) (xs : List α) :
    openPlaces marker (x :: xs) = openPlaces marker xs + 1 := by
  simp only [openPlaces, List.length_cons, List.count_cons_of_ne h]
  omega

theorem openPlaces_append (marker : α) (xs ys : List α) :
    openPlaces marker (xs ++ ys) = openPlaces marker xs + openPlaces marker ys - 1 := by
  simp only [openPlaces, List.length_append, List.count_append]
  omega

theorem takes_nil (marker : α) : Takes marker [] 0 1 where
  le := Nat.le_refl _
  openPlaces_eq := rfl
  open_before _ h := absurd h (Nat.not_lt_zero _)
  all_taken _ := rfl

theorem takes_marker (marker : α) (xs : List α) : Takes marker (marker :: xs) 1 0 where
  le := by simp
  openPlaces_eq := by simp [openPlaces_cons_self]
  open_before n h := by simp [Nat.lt_one_iff.mp h]
  all_taken h := absurd rfl h

/-- A node takes one value, and then what its children take. -/
theorem Takes.node {x : α} {xs : List α} {takenLeft missingLeft takenRight missingRight : ℕ}
    (hx : x ≠ marker) (hleft : Takes marker xs takenLeft missingLeft)
    (hright : Takes marker (xs.drop takenLeft) takenRight missingRight) :
    Takes marker (x :: xs) (takenLeft + takenRight + 1) (missingLeft + missingRight) := by
  have hle := hright.le
  rw [List.length_drop] at hle
  constructor
  case le =>
    have hle' := hleft.le
    rw [List.length_cons]
    omega
  case openPlaces_eq =>
    rw [List.take_succ_cons, openPlaces_cons_of_ne hx, List.take_add, openPlaces_append,
      hleft.openPlaces_eq, hright.openPlaces_eq]
    omega
  case open_before =>
    intro n hn
    cases n with
    | zero => simp
    | succ n =>
        rw [List.take_succ_cons, openPlaces_cons_of_ne hx]
        by_cases hlt : n < takenLeft
        · have hopen := hleft.open_before n hlt
          omega
        · obtain ⟨m, rfl⟩ := Nat.exists_eq_add_of_le (Nat.le_of_not_lt hlt)
          have hopen := hright.open_before m (by omega)
          rw [List.take_add, openPlaces_append, hleft.openPlaces_eq]
          omega
  case all_taken =>
    intro hmissing
    rw [List.length_cons]
    by_cases hzero : missingLeft = 0
    · have hall := hright.all_taken (by omega)
      have hle' := hleft.le
      rw [List.length_drop] at hall
      omega
    · have hall := hleft.all_taken hzero
      omega

/-- Nothing is left for the right child of a node where something is missing in the left
one, so that what is missing stands behind everything that was taken. -/
theorem Takes.preorder_node {xs : List α} {left right : BinaryTree α}
    {takenLeft missingLeft takenRight missingRight : ℕ}
    (htakes : Takes marker xs takenLeft missingLeft)
    (hleft : preorder marker left =
      xs.take takenLeft ++ List.replicate missingLeft marker)
    (hright : preorder marker right =
      (xs.drop takenLeft).take takenRight ++ List.replicate missingRight marker) (x : α) :
    preorder marker (.node x left right) = (x :: xs).take (takenLeft + takenRight + 1) ++
      List.replicate (missingLeft + missingRight) marker := by
  have hswap : List.replicate missingLeft marker ++ (xs.drop takenLeft).take takenRight =
      (xs.drop takenLeft).take takenRight ++ List.replicate missingLeft marker := by
    by_cases hmissing : missingLeft = 0
    · simp [hmissing]
    · simp [htakes.all_taken hmissing]
  rw [preorder, hleft, hright, List.take_succ_cons, List.take_add,
    ← List.replicate_append_replicate, List.append_assoc,
    ← List.append_assoc (List.replicate missingLeft marker), hswap]
  simp only [List.cons_append, List.append_assoc]

/-- A reading takes as much of a list as its tree needs, and leaves the rest. -/
theorem readPreorder_takes {fuel : ℕ} {xs : List α} (hfuel : xs.length < fuel) :
    ∃ taken missing, Takes marker xs taken missing ∧
      (readPreorder marker fuel xs).2 = xs.drop taken ∧
      preorder marker (readPreorder marker fuel xs).1 =
        xs.take taken ++ List.replicate missing marker := by
  induction fuel generalizing xs with
  | zero => exact absurd hfuel (Nat.not_lt_zero _)
  | succ fuel ih =>
      cases xs with
      | nil => exact ⟨0, 1, takes_nil marker, rfl, rfl⟩
      | cons x xs =>
          rw [readPreorder]
          by_cases hx : x = marker
          · rw [if_pos hx, hx]
            exact ⟨1, 0, takes_marker marker xs, rfl, rfl⟩
          · rw [if_neg hx]
            rw [List.length_cons] at hfuel
            have hxs : xs.length < fuel := by omega
            obtain ⟨takenLeft, missingLeft, hleft, hrest, hpre⟩ := ih hxs
            have hdrop : (xs.drop takenLeft).length < fuel := by
              rw [List.length_drop]
              omega
            obtain ⟨takenRight, missingRight, hright, hrest', hpre'⟩ := ih hdrop
            generalize readPreorder marker fuel xs = first at hleft hrest hpre ⊢
            rcases first with ⟨left, ys⟩
            cases hrest
            refine ⟨_, _, hleft.node hx hright, ?_, hleft.preorder_node hpre hpre' x⟩
            rw [List.drop_succ_cons, ← List.drop_drop]
            exact hrest'

end

end LibHuffman.Foundation
