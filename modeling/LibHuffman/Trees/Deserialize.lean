/-
# Deserialization

`huf_tree_deserialize` builds the tree that its words denote, in nodes that it
allocates one after the other in preorder. The recursion is followed on the words
that are left: it takes as many as `readPreorder` does and puts the tree it reads
behind an empty pointer, without touching anything else that was allocated before.
-/

import LibHuffman.Trees.Linked

namespace LibHuffman

open Foundation

/-! ## Pointers to fill -/

/-- What the assignment to a pointer does. -/
def NodeSlot.set (p : ℕ) (s : TreeStore) : NodeSlot → TreeStore
  | .root => { s with tree := { s.tree with root := some p } }
  | .left q =>
    let owner := (s.heap.nodes q).map fun node => { node with left := some p }
    { s with heap := s.heap.put q owner }
  | .right q =>
    let owner := (s.heap.nodes q).map fun node => { node with right := some p }
    { s with heap := s.heap.put q owner }

/-- Assign a pointer unless it is null. -/
def NodeSlot.fill (slot : NodeSlot) (pointer : Option ℕ) (s : TreeStore) : TreeStore :=
  match pointer with
  | none => s
  | some p => slot.set p s

/-- The pointer belongs to a node that was allocated before, or is the root. -/
def NodeSlot.Valid (s : TreeStore) : NodeSlot → Prop
  | .root => True
  | .left q => q < s.heap.next ∧ ∃ node, s.heap.nodes q = some node
  | .right q => q < s.heap.next ∧ ∃ node, s.heap.nodes q = some node

/-- The value a pointer gets when a tree is built behind it at this address. -/
def plantedPointer (tree : BinaryTree Int16) (p : ℕ) : Option ℕ :=
  match tree with
  | .nil => none
  | .node .. => some p

/-- From one state to another, the tree was built behind an empty pointer. -/
structure Planted (slot : NodeSlot) (tree : BinaryTree Int16) (s s' : TreeStore) : Prop where
  root : s'.tree = (slot.fill (plantedPointer tree s.heap.next) s).tree
  before : ∀ q < s.heap.next, s'.heap.nodes q =
    (slot.fill (plantedPointer tree s.heap.next) s).heap.nodes q
  planted : TreeAt s'.heap (plantedPointer tree s.heap.next) tree
    (List.range' s.heap.next tree.numNodes)
  next : s'.heap.next = s.heap.next + tree.numNodes
  allocations : s'.heap.allocations = []

/-- From one state to another, a node was allocated behind a pointer and given
its index. -/
structure Sprouted (slot : NodeSlot) (index : Int16) (s s' : TreeStore) : Prop where
  root : s'.tree = (slot.set s.heap.next s).tree
  before : ∀ q < s.heap.next, s'.heap.nodes q = (slot.set s.heap.next s).heap.nodes q
  sprout : s'.heap.nodes s.heap.next = some ⟨index, none, none, none⟩
  next : s'.heap.next = s.heap.next + 1
  allocations : s'.heap.allocations = []

section

variable {s s' : TreeStore} {slot : NodeSlot}

theorem TreeStore.update_of_some {p : ℕ} {node : HufNode} (h : s.heap.nodes p = some node)
    (change : HufNode → HufNode) :
    Routine.within TreeStore.nodes (Heap.update (some p) change) s =
      .ok (.ok (), { s with heap := s.heap.put p (some (change node)) }) :=
  Routine.within_of_ok rfl (Heap.update_of_some h change)

theorem NodeSlot.assign_of_valid (h : slot.Valid s) (p : ℕ) :
    slot.assign p s = .ok (.ok (), slot.set p s) := by
  cases slot with
  | root => rfl
  | left q =>
      rcases h with ⟨-, node, hnode⟩
      rw [NodeSlot.assign, TreeStore.update_of_some hnode, NodeSlot.set, hnode]
      rfl
  | right q =>
      rcases h with ⟨-, node, hnode⟩
      rw [NodeSlot.assign, TreeStore.update_of_some hnode, NodeSlot.set, hnode]
      rfl

/-- Assigning to a pointer changes no node but the one it belongs to. -/
theorem NodeSlot.set_extend (h : slot.Valid s) (p : ℕ) :
    (slot.set p { s with heap := s.heap.extend }).tree = (slot.set p s).tree ∧
      (∀ q < s.heap.next, (slot.set p { s with heap := s.heap.extend }).heap.nodes q =
        (slot.set p s).heap.nodes q) ∧
      (slot.set p { s with heap := s.heap.extend }).heap.nodes s.heap.next =
        some ⟨0, none, none, none⟩ ∧
      (slot.set p { s with heap := s.heap.extend }).heap.next = s.heap.next + 1 ∧
      (slot.set p { s with heap := s.heap.extend }).heap.allocations = s.heap.allocations := by
  have hbefore : ∀ q < s.heap.next, s.heap.extend.nodes q = s.heap.nodes q :=
    fun q hq => Heap.nodes_put_of_ne _ _ (Nat.ne_of_lt hq)
  cases slot with
  | root => exact ⟨rfl, hbefore, Heap.nodes_put _ _ _, rfl, rfl⟩
  | left owner =>
      rcases h with ⟨howner, -⟩
      refine ⟨rfl, fun q hq => ?_, ?_, rfl, rfl⟩
      · by_cases hne : q = owner
        · subst hne
          simp only [NodeSlot.set, Heap.nodes_put, hbefore q hq]
        · simp only [NodeSlot.set, Heap.nodes_put_of_ne _ _ hne, hbefore q hq]
      · have hne : s.heap.next ≠ owner := (Nat.ne_of_lt howner).symm
        simp only [NodeSlot.set, Heap.nodes_put_of_ne _ _ hne]
        exact Heap.nodes_put _ _ _
  | right owner =>
      rcases h with ⟨howner, -⟩
      refine ⟨rfl, fun q hq => ?_, ?_, rfl, rfl⟩
      · by_cases hne : q = owner
        · subst hne
          simp only [NodeSlot.set, Heap.nodes_put, hbefore q hq]
        · simp only [NodeSlot.set, Heap.nodes_put_of_ne _ _ hne, hbefore q hq]
      · have hne : s.heap.next ≠ owner := (Nat.ne_of_lt howner).symm
        simp only [NodeSlot.set, Heap.nodes_put_of_ne _ _ hne]
        exact Heap.nodes_put _ _ _

/-- Allocate a node, link it and give it its index. -/
theorem sprout (hvalid : slot.Valid s) (halloc : s.heap.allocations = []) (index : Int16) :
    ∃ s₁ s₂ s₃,
      Routine.within TreeStore.nodes Heap.mallocNode s = .ok (.ok s.heap.next, s₁) ∧
      slot.assign s.heap.next s₁ = .ok (.ok (), s₂) ∧
      Routine.within TreeStore.nodes (Heap.update (some s.heap.next)
        fun node => { node with index }) s₂ = .ok (.ok (), s₃) ∧
      Sprouted slot index s s₃ := by
  obtain ⟨htree, hbefore, hnew, hnext, hallocs⟩ := NodeSlot.set_extend hvalid s.heap.next
  have hvalid₁ : slot.Valid { s with heap := s.heap.extend } := by
    have hold : ∀ q < s.heap.next, s.heap.extend.nodes q = s.heap.nodes q :=
      fun q hq => Heap.nodes_put_of_ne _ _ (Nat.ne_of_lt hq)
    cases slot with
    | root => trivial
    | left q => exact ⟨Nat.lt_succ_of_lt hvalid.1, by rw [hold q hvalid.1]; exact hvalid.2⟩
    | right q => exact ⟨Nat.lt_succ_of_lt hvalid.1, by rw [hold q hvalid.1]; exact hvalid.2⟩
  refine ⟨_, _, _, Routine.within_of_ok rfl (Heap.mallocNode_eq halloc),
    NodeSlot.assign_of_valid hvalid₁ _, TreeStore.update_of_some hnew _, htree, ?_, ?_, hnext, ?_⟩
  · intro q hq
    exact (Heap.nodes_put_of_ne _ _ (Nat.ne_of_lt hq)).trans (hbefore q hq)
  · exact Heap.nodes_put _ _ _
  · exact hallocs.trans halloc

/-- A node that has sprouted and whose children were planted one after the other
is a planted tree. -/
theorem Sprouted.planted {index : Int16} {left right : BinaryTree Int16} {s₁ s₂ s₃ : TreeStore}
    (h : Sprouted slot index s s₁) (hleft : Planted (.left s.heap.next) left s₁ s₂)
    (hright : Planted (.right s.heap.next) right s₂ s₃) :
    Planted slot (.node index left right) s s₃ := by
  have hnext₂ : s₂.heap.next = s.heap.next + 1 + left.numNodes := by rw [hleft.next, h.next]
  -- what the two later steps leave of the nodes that were there before
  have hfill : ∀ (child : NodeSlot) (pointer : Option ℕ) (t : TreeStore) (q : ℕ),
      (child = .left s.heap.next ∨ child = .right s.heap.next) → q ≠ s.heap.next →
      (child.fill pointer t).heap.nodes q = t.heap.nodes q := by
    rintro child pointer t q (rfl | rfl) hq <;> cases pointer
    · rfl
    · exact Heap.nodes_put_of_ne _ _ hq
    · rfl
    · exact Heap.nodes_put_of_ne _ _ hq
  have htree : ∀ (child : NodeSlot) (pointer : Option ℕ) (t : TreeStore),
      (child = .left s.heap.next ∨ child = .right s.heap.next) →
      (child.fill pointer t).tree = t.tree := by
    rintro child pointer t (rfl | rfl) <;> cases pointer <;> rfl
  have hnode₂ : s₂.heap.nodes s.heap.next =
      some ⟨index, none, plantedPointer left s₁.heap.next, none⟩ := by
    rw [hleft.before _ (by rw [h.next]; exact Nat.lt_succ_self _)]
    cases left with
    | nil => exact h.sprout
    | node a l r =>
        show (s₁.heap.put _ _).nodes _ = _
        rw [Heap.nodes_put, h.sprout]
        rfl
  have hnode₃ : s₃.heap.nodes s.heap.next =
      some ⟨index, none, plantedPointer left s₁.heap.next, plantedPointer right s₂.heap.next⟩ := by
    rw [hright.before _ (by simp only [hnext₂]; omega)]
    cases right with
    | nil => exact hnode₂
    | node a l r =>
        show (s₂.heap.put _ _).nodes _ = _
        rw [Heap.nodes_put, hnode₂]
        rfl
  refine ⟨?_, ?_, ?_, ?_, hright.allocations⟩
  · rw [hright.root, htree _ _ _ (Or.inr rfl), hleft.root, htree _ _ _ (Or.inl rfl), h.root]
    rfl
  · intro q hq
    have hne : q ≠ s.heap.next := Nat.ne_of_lt hq
    rw [hright.before q (by simp only [hnext₂]; omega), hfill _ _ _ _ (Or.inr rfl) hne,
      hleft.before q (by simp only [h.next]; omega), hfill _ _ _ _ (Or.inl rfl) hne, h.before q hq]
    rfl
  · have hlefts : TreeAt s₃.heap (plantedPointer left s₁.heap.next) left
        (List.range' s₁.heap.next left.numNodes) := by
      apply hleft.planted.frame
      intro q hq
      rw [List.mem_range'_1, h.next] at hq
      rw [hright.before q (by simp only [hnext₂]; omega), hfill _ _ _ _ (Or.inr rfl) ?_]
      exact (Nat.ne_of_lt hq.1).symm
    have hplanted := TreeAt.node hnode₃ hlefts hright.planted
    have hcells : List.range' s.heap.next (BinaryTree.node index left right).numNodes =
        s.heap.next :: (List.range' s₁.heap.next left.numNodes ++
          List.range' s₂.heap.next right.numNodes) := by
      simp [BinaryTree.numNodes, List.range'_succ, h.next, hnext₂]
    rw [hcells]
    exact hplanted
  · rw [hright.next, hnext₂, BinaryTree.numNodes]
    omega

/-- A node that has sprouted has its pointers to fill. -/
theorem Sprouted.valid {index : Int16} (h : Sprouted slot index s s') :
    NodeSlot.Valid s' (.left s.heap.next) ∧ NodeSlot.Valid s' (.right s.heap.next) := by
  have hvalid : s.heap.next < s'.heap.next ∧ ∃ node, s'.heap.nodes s.heap.next = some node :=
    ⟨h.next ▸ Nat.lt_succ_self _, _, h.sprout⟩
  exact ⟨hvalid, hvalid⟩

/-- What is planted on the left of a node leaves the node where it is. -/
theorem Planted.valid_right {tree : BinaryTree Int16} {p : ℕ}
    (h : Planted (.left p) tree s s') (hvalid : NodeSlot.Valid s (.right p)) :
    NodeSlot.Valid s' (.right p) := by
  rcases hvalid with ⟨hlt, node, hnode⟩
  refine ⟨by rw [h.next]; exact Nat.lt_add_right _ hlt, ?_⟩
  rw [h.before p hlt]
  cases plantedPointer tree s.heap.next with
  | none => exact ⟨node, hnode⟩
  | some q =>
      show ∃ node, (s.heap.put _ _).nodes _ = some node
      rw [Heap.nodes_put, hnode]
      exact ⟨_, rfl⟩

/-- The heap holds a tree that was planted at the root. -/
theorem Planted.holds {tree : BinaryTree Int16} (h : Planted .root tree s s')
    (hroot : s.tree.root = none) : s'.heap.Holds s'.tree.root tree := by
  have hpointer : s'.tree.root = plantedPointer tree s.heap.next := by
    rw [h.root]
    cases plantedPointer tree s.heap.next with
    | none => exact hroot
    | some p => rfl
  rw [hpointer]
  refine ⟨_, h.planted, List.nodup_range', fun p hp => ?_⟩
  rw [List.mem_range'_1] at hp
  rw [h.next]
  exact hp.2

end

/-! ## The recursion -/

/-- The recursion takes the words that `readPreorder` takes and plants the tree
it reads. -/
theorem hufDeserializeTree_eq (buf : List Int16) {fuel : ℕ} {slot : NodeSlot} {s : TreeStore}
    (pos : ℕ) (hfuel : (buf.drop pos).length < fuel) (hvalid : slot.Valid s)
    (halloc : s.heap.allocations = []) :
    ∃ s', hufDeserializeTree buf fuel slot pos (buf.drop pos).length s =
        .ok (.ok ((buf.drop pos).length -
          (readPreorder hufLeafNode fuel (buf.drop pos)).2.length), s') ∧
      Planted slot (readPreorder hufLeafNode fuel (buf.drop pos)).1 s s' ∧
      (readPreorder hufLeafNode fuel (buf.drop pos)).2 <:+ buf.drop pos := by
  induction fuel generalizing slot s pos with
  | zero => exact absurd hfuel (Nat.not_lt_zero _)
  | succ fuel ih =>
      have hnil : Planted slot .nil s s :=
        ⟨rfl, fun _ _ => rfl, .absent, rfl, halloc⟩
      cases hwords : buf.drop pos with
      | nil =>
          refine ⟨s, ?_, hnil, List.suffix_refl _⟩
          rw [hufDeserializeTree, if_pos (by rw [List.length_nil]; exact Nat.zero_lt_one)]
          rfl
      | cons word words =>
          have hword : load buf pos = .ok word := by
            apply load_of_getElem?
            rw [← List.head?_drop, hwords]
            rfl
          have hpos : buf.drop (pos + 1) = words := by
            rw [← List.drop_drop, hwords]
            rfl
          rw [hufDeserializeTree, if_neg (by simp only [List.length_cons]; omega), hword,
            Routine.demand_ok_bind_apply, readPreorder]
          by_cases hmarker : word = hufLeafNode
          · refine ⟨s, ?_, ?_, ?_⟩
            · rw [if_pos hmarker, if_pos hmarker, List.length_cons]
              show Except.ok (Except.ok 1, s) =
                Except.ok (Except.ok (words.length + 1 - words.length), s)
              rw [Nat.add_sub_cancel_left]
            · rw [if_pos hmarker]
              exact hnil
            · rw [if_pos hmarker]
              exact List.suffix_cons word words
          · obtain ⟨t₁, t₂, s₁, hmalloc, hassign, hindex, hsprouted⟩ := sprout hvalid halloc word
            rw [hwords, List.length_cons] at hfuel
            -- the words that are left for the left child, and then for the right one
            set lefts := readPreorder hufLeafNode fuel words with hlefts
            obtain ⟨s₂, hrunLeft, hplantedLeft, hsuffixLeft⟩ :=
              ih (pos + 1) (by simp only [hpos]; omega) hsprouted.valid.1 hsprouted.allocations
            rw [hpos, ← hlefts] at hrunLeft hplantedLeft hsuffixLeft
            have hle := hsuffixLeft.length_le
            have hposRight : buf.drop (pos + 1 + (words.length - lefts.2.length)) = lefts.2 := by
              rw [← List.drop_drop, hpos]
              exact (List.suffix_iff_eq_drop.mp hsuffixLeft).symm
            obtain ⟨s₃, hrunRight, hplantedRight, hsuffixRight⟩ :=
              ih (pos + 1 + (words.length - lefts.2.length)) (by simp only [hposRight]; omega)
                (hplantedLeft.valid_right hsprouted.valid.2) hplantedLeft.allocations
            rw [hposRight] at hrunRight hplantedRight hsuffixRight
            set rights := readPreorder hufLeafNode fuel lefts.2
            have hle' := hsuffixRight.length_le
            refine ⟨s₃, ?_, ?_, ?_⟩
            · rw [if_neg hmarker, if_neg hmarker, Routine.bind_of_ok hmalloc,
                Routine.bind_of_ok hassign, Routine.bind_of_ok hindex]
              have hroomLeft : sizeSub (word :: words).length 1 = words.length := by
                rw [sizeSub_of_le (by simp only [List.length_cons]; omega), List.length_cons,
                  Nat.add_sub_cancel]
              have hroomRight : sizeSub (sizeSub (word :: words).length
                  (words.length - lefts.2.length)) 1 = lefts.2.length := by
                have hrest : sizeSub (word :: words).length (words.length - lefts.2.length) =
                    lefts.2.length + 1 := by
                  rw [sizeSub_of_le (by rw [List.length_cons]; omega), List.length_cons]
                  omega
                rw [hrest, sizeSub_of_le (by omega), Nat.add_sub_cancel]
              rw [hroomLeft, Routine.bind_of_ok hrunLeft, hroomRight,
                Routine.bind_of_ok hrunRight, List.length_cons]
              have hcount : words.length - lefts.2.length + (lefts.2.length - rights.2.length) + 1 =
                  words.length + 1 - rights.2.length := by omega
              show Except.ok (Except.ok (words.length - lefts.2.length +
                (lefts.2.length - rights.2.length) + 1), s₃) = _
              rw [hcount]
            · rw [if_neg hmarker]
              exact hsprouted.planted hplantedLeft hplantedRight
            · rw [if_neg hmarker]
              exact (hsuffixRight.trans hsuffixLeft).trans (List.suffix_cons word words)

/-- In an empty tree, deserialization builds the tree that the words denote. -/
theorem hufTreeDeserialize_eq {s : TreeStore} (words : List Int16) (hroot : s.tree.root = none)
    (halloc : s.heap.allocations = []) :
    ∃ s', hufTreeDeserialize words words.length s = .ok (.ok (), s') ∧
      s'.heap.Holds s'.tree.root (denotedTree hufLeafNode words) ∧
      s'.heap.allocations = [] := by
  obtain ⟨s', hrun, hplanted, -⟩ := hufDeserializeTree_eq words 0
    (Nat.lt_succ_self words.length) (show NodeSlot.Valid s .root from trivial) halloc
  rw [List.drop_zero] at hrun hplanted
  refine ⟨s', ?_, hplanted.holds hroot, hplanted.allocations⟩
  rw [hufTreeDeserialize, Routine.bind_of_ok hrun]
  rfl

end LibHuffman
