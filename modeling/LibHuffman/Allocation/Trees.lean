/-
# Trees under failing allocations

The heap operations follow themselves without failures. A deserialization that runs
out of memory leaves a part of its tree behind the pointer it was given, so that
what hangs at the root can be released as a whole one can.
-/

import LibHuffman.Allocation.Schedule
import LibHuffman.Trees.Release

namespace LibHuffman

open Foundation Allocating

/-! ## The heap -/

theorem Heap.carries_allocator : Carries Heap.allocator where
  load _ := rfl
  load_allocations _ _ h := by cases h; rfl
  store _ _ := rfl
  store_allocations _ _ := rfl

theorem TreeStore.carries_nodes : Carries TreeStore.nodes where
  load _ := rfl
  load_allocations _ _ h := by cases h; rfl
  store _ _ := rfl
  store_allocations _ _ := rfl

namespace Heap

section

variable {Inv Pre : Heap → Prop}

/-- The allocation of a node, or nothing. -/
theorem mallocNode_endures {Post : ℕ → Heap → Prop}
    (hinv : ∀ heap outcomes, Pre heap → Inv { heap with allocations := outcomes })
    (hpost : ∀ heap outcomes, Pre heap →
      Post heap.next { heap.extend with allocations := outcomes }) :
    Endures Inv Pre mallocNode Post := by
  intro first heap hspared hpre
  have hmalloc : Endures Inv (fun heap' => heap' = heap) (Routine.within allocator hufMalloc)
      fun _ heap' => ∃ outcomes, heap' = { heap with allocations := outcomes } := by
    apply Endures.within carries_allocator
    rintro heap outcomes rfl -
    apply hufMalloc_endures.mono
    · exact fun _ _ => trivial
    · exact fun outcomes' _ => hinv heap outcomes' hpre
    · exact fun _ outcomes' _ => ⟨outcomes', rfl⟩
  apply hmalloc.bind _ first heap hspared rfl
  intro _
  apply Endures.get_bind fun _ => rfl
  rintro heap'
  apply Endures.bind (Q := fun _ later => heap'.next = heap.next ∧ ∃ outcomes,
    later = { heap.extend with allocations := outcomes })
  · refine Endures.modify ?_ (fun _ => rfl) fun _ => rfl
    rintro _ ⟨rfl, outcomes, rfl⟩
    exact ⟨rfl, outcomes, rfl⟩
  · intro _
    apply Endures.pure
    rintro _ ⟨hnext, outcomes, rfl⟩
    exact hnext ▸ hpost heap outcomes hpre

/-- A change of a node that is there. -/
theorem update_endures {Post : Unit → Heap → Prop} (pointer : Option ℕ)
    (change : HufNode → HufNode)
    (hpost : ∀ heap p node, Pre heap → pointer = some p → heap.nodes p = some node →
      Post () (heap.put p (some (change node)))) :
    Endures Inv Pre (update pointer change) Post := by
  apply Endures.demand_bind
  intro p hp
  apply Endures.get_bind fun _ => rfl
  intro heap
  apply Endures.demand_bind
  intro node hnode
  refine Endures.modify ?_ (fun _ => rfl) fun _ => rfl
  rintro _ ⟨rfl, hpre⟩
  apply hpost _ p node hpre
  · cases pointer with
    | none => cases hp
    | some q =>
        cases hp
        rfl
  · rw [read] at hnode
    split at hnode
    · cases hnode
      assumption
    · cases hnode

/-- The release of a node that is there. -/
theorem free_endures {Post : Unit → Heap → Prop} (pointer : Option ℕ)
    (hnone : ∀ heap, Pre heap → pointer = none → Post () heap)
    (hpost : ∀ heap p, Pre heap → pointer = some p → Post () (heap.put p none)) :
    Endures Inv Pre (free pointer) Post := by
  cases pointer with
  | none => exact Endures.pure fun heap hpre => hnone heap hpre rfl
  | some p =>
      apply Endures.get_bind fun _ => rfl
      intro heap
      apply Endures.demand_bind
      intro node hnode
      refine Endures.modify ?_ (fun _ => rfl) fun _ => rfl
      rintro _ ⟨rfl, hpre⟩
      exact hpost _ p hpre rfl

end

end Heap

/-! ## Deserialization -/

/-- There is a tree at the root. -/
def Rooted (s : TreeStore) : Prop := ∃ tree, s.heap.Holds s.tree.root tree

/-- A tree is where it is whatever the outcomes of the allocations. -/
theorem Heap.Holds.of_nodes {heap heap' : Heap} {pointer : Option ℕ} {tree : BinaryTree Int16}
    (h : heap.Holds pointer tree) (hnodes : heap'.nodes = heap.nodes)
    (hnext : heap'.next = heap.next) : heap'.Holds pointer tree := by
  rcases h with ⟨cells, hat, hnodup, hlt⟩
  exact ⟨cells, hat.frame fun p _ => congrFun hnodes p, hnodup, hnext ▸ hlt⟩

section

variable {slot : NodeSlot}

theorem schedule_of_nil {s : TreeStore} (h : s.heap.allocations = []) : schedule [] s = s := by
  rcases s with ⟨tree, nodes, next, outcomes⟩
  cases h
  rfl

theorem planted_nil (slot : NodeSlot) (s : TreeStore) :
    Planted slot .nil (schedule [] s) (schedule [] s) :=
  ⟨rfl, fun _ _ => rfl, .absent, rfl, rfl⟩

theorem TreeStore.update_endures (q : ℕ) (change : HufNode → HufNode)
    {Inv Pre : TreeStore → Prop} :
    Endures Inv Pre (Routine.within TreeStore.nodes (Heap.update (some q) change))
      fun _ _ => True := by
  apply Endures.within TreeStore.carries_nodes
  intro s heap _ _
  exact Heap.update_endures _ _ fun _ _ _ _ _ _ => trivial

theorem NodeSlot.assign_endures (p : ℕ) {Inv Pre : TreeStore → Prop} :
    Endures Inv Pre (slot.assign p) fun _ _ => True := by
  cases slot with
  | root => exact Endures.modify (fun _ _ => trivial) (fun _ => rfl) fun _ => rfl
  | left q => exact TreeStore.update_endures q _
  | right q => exact TreeStore.update_endures q _

/-- The recursion has planted a tree wherever it ends. -/
theorem hufDeserializeTree_endures (buf : List Int16) {fuel : ℕ} (pos bufLen : ℕ) {s₀ : TreeStore}
    (hvalid : slot.Valid s₀) :
    Endures (fun s => ∃ tree, Planted slot tree (schedule [] s₀) (schedule [] s))
      (fun s => schedule [] s = schedule [] s₀) (hufDeserializeTree buf fuel slot pos bufLen)
      fun _ s => ∃ tree, Planted slot tree (schedule [] s₀) (schedule [] s) := by
  induction fuel generalizing slot s₀ pos bufLen with
  | zero => exact fun _ _ _ _ => .fault _
  | succ fuel ih =>
      have hnil : ∀ s, schedule [] s = schedule [] s₀ →
          ∃ tree, Planted slot tree (schedule [] s₀) (schedule [] s) :=
        fun s hs => ⟨.nil, hs ▸ planted_nil slot s⟩
      apply Endures.ite
      · exact fun _ => Endures.pure hnil
      intro _
      apply Endures.demand_bind
      intro word _
      apply Endures.ite
      · exact fun _ => Endures.pure hnil
      intro _
      have hvalid' : slot.Valid (schedule [] s₀) := by
        cases slot <;> exact hvalid
      rcases sprout hvalid' rfl word with ⟨t₁, t₂, t₃, hmalloc, hassign, hindex, hsprouted⟩
      have hsame : schedule [] t₃ = t₃ := schedule_of_nil hsprouted.allocations
      apply Endures.bind (Q := fun p s => p = s₀.heap.next ∧ schedule [] s = t₁)
      · apply Endures.determine
        · apply Endures.within TreeStore.carries_nodes
          rintro s heap hs ⟨⟩
          apply Heap.mallocNode_endures
          · rintro heap outcomes rfl
            exact hnil _ hs
          · exact fun _ _ _ => trivial
        · intro s p s' hs hrun
          rw [hs] at hrun
          cases hmalloc.symm.trans hrun
          exact ⟨rfl, rfl⟩
      intro p
      apply Endures.assume
      rintro rfl
      apply Endures.bind (Q := fun _ s => schedule [] s = t₂)
      · apply (NodeSlot.assign_endures _).determine
        intro s _ s' hs hrun
        rw [hs] at hrun
        cases hassign.symm.trans hrun
        rfl
      intro _
      apply Endures.bind (Q := fun _ s => schedule [] s = t₃)
      · apply (TreeStore.update_endures _ _).determine
        intro s _ s' hs hrun
        rw [hs] at hrun
        cases hindex.symm.trans hrun
        rfl
      intro _
      apply Endures.bind
      · apply (ih (pos + 1) (sizeSub bufLen 1) hsprouted.valid.1).mono
        · intro s hs
          rw [hs, hsame]
        · rintro s ⟨left, hleft⟩
          rw [hsame] at hleft
          exact ⟨_, hsprouted.planted hleft (planted_nil _ s)⟩
        · exact fun _ _ hleft => hleft
      intro leftBranchLen
      apply Endures.fix
      rintro s₂ ⟨left, hleft⟩
      rw [hsame] at hleft
      have hright : ∀ s, (∃ right, Planted (.right s₀.heap.next) right (schedule [] s₂)
          (schedule [] s)) → ∃ tree, Planted slot tree (schedule [] s₀) (schedule [] s) := by
        rintro s ⟨right, hright⟩
        exact ⟨_, hsprouted.planted hleft hright⟩
      apply Endures.bind
      · apply (ih _ _ (show NodeSlot.Valid s₂ (.right s₀.heap.next) from
          hleft.valid_right hsprouted.valid.2)).mono
        · rintro s rfl
          rfl
        · exact hright
        · exact fun _ => hright
      intro rightBranchLen
      exact Endures.pure fun _ h => h

/-- A deserialization that ends leaves a tree at the root. -/
theorem hufTreeDeserialize_endures (buf : List Int16) (len : ℕ) :
    Endures Rooted (fun s => s.tree.root = none) (hufTreeDeserialize buf len)
      fun _ => Rooted := by
  apply Endures.fix
  intro s₀ hroot
  have hrooted : ∀ s, (∃ tree, Planted .root tree (schedule [] s₀) (schedule [] s)) →
      Rooted s := fun s ⟨tree, h⟩ =>
    ⟨tree, (h.holds hroot).of_nodes rfl rfl⟩
  apply Endures.bind
  · apply (hufDeserializeTree_endures buf 0 len (show NodeSlot.Valid s₀ .root from trivial)).mono
    · rintro s rfl
      rfl
    · exact hrooted
    · exact fun _ => hrooted
  · intro _
    exact Endures.pure fun _ h => h

/-! ## Release -/

theorem hufTreeFreeBelow_endures (fuel : ℕ) (pointer : Option ℕ) {Inv Pre : Heap → Prop} :
    Endures Inv Pre (hufTreeFreeBelow fuel pointer) fun _ _ => True := by
  apply Endures.strengthen (P := fun _ => True) _ fun _ _ => trivial
  induction fuel generalizing pointer with
  | zero => exact fun _ _ _ _ => .fault _
  | succ fuel ih =>
      cases pointer with
      | none => exact Endures.pure fun _ _ => trivial
      | some p =>
          have hfree : ∀ child, Endures Inv (fun _ => True) (Heap.free child) fun _ _ => True :=
            fun child => Heap.free_endures child (fun _ _ _ => trivial) fun _ _ _ _ => trivial
          have hupdate : Endures Inv (fun _ => True)
              (Heap.update (some p) fun node => { node with left := none }) fun _ _ => True :=
            Heap.update_endures _ _ fun _ _ _ _ _ _ => trivial
          have hright : Endures Inv (fun _ => True) (do
              let right := (← Routine.demand ((← Routine.get).read p)).right
              if right ≠ none then
                hufTreeFreeBelow fuel right
                Heap.free right
                Heap.update (some p) fun node => { node with left := none }) fun _ _ => True := by
            apply Endures.fetch_bind fun _ => rfl
            intro node
            apply Endures.ite
            · intro _
              apply (ih _).bind
              intro _
              apply (hfree _).bind
              intro _
              exact hupdate
            · exact fun _ => Endures.pure fun _ _ => trivial
          apply Endures.fetch_bind fun _ => rfl
          intro node
          apply Endures.ite
          · intro _
            apply (ih _).bind
            intro _
            apply (hfree _).bind
            intro _
            apply hupdate.bind
            intro _
            exact hright
          · exact fun _ => hright

/-- Releasing a tree does the same under every schedule. -/
theorem releaseNodes_endures (root : Option ℕ) {Inv Pre : Heap → Prop} :
    Endures Inv Pre (releaseNodes root) fun _ _ => True := by
  apply Endures.get_bind fun _ => rfl
  intro heap
  apply (hufTreeFreeBelow_endures _ _).bind
  intro _
  exact Heap.free_endures _ (fun _ _ _ => trivial) fun _ _ _ _ => trivial

/-- A reset empties the tree. -/
theorem hufTreeReset_endures {Inv Pre : TreeStore → Prop} :
    Endures Inv Pre hufTreeReset fun _ s => s.tree = ⟨noLeaves, none⟩ := by
  apply Endures.get_bind fun _ => rfl
  intro s₀
  apply Endures.bind (Q := fun _ _ => True)
  · apply Endures.within TreeStore.carries_nodes
    intro s heap _ _
    exact releaseNodes_endures _
  · intro _
    exact Endures.modify (fun _ _ => rfl) (fun _ => rfl) fun _ => rfl

theorem hufTreeFree_endures {I P : Option HufTree × Heap → Prop} :
    Endures I P hufTreeFree fun _ _ => True := by
  apply Endures.fetch_bind fun _ => rfl
  intro self
  apply Endures.bind (Q := fun _ _ => True)
  · apply Endures.within
    · exact ⟨fun _ => rfl, fun _ _ h => by cases h; rfl, fun _ _ => rfl, fun _ _ => rfl⟩
    · intro s heap _ _
      exact releaseNodes_endures _
  · intro _
    exact Endures.modify (fun _ _ => trivial) (fun _ => rfl) fun _ => rfl

/-- The release of a tree that is there ends without a fault. -/
theorem hufTreeFree_cleans {tree : HufTree} {heap : Heap} {shape : BinaryTree Int16}
    (h : heap.Holds tree.root shape) :
    ∃ heap', hufTreeFree (some tree, heap) = .ok (.ok (), (none, heap')) ∧
      hufTreeFree (some tree, schedule [] heap) = .ok (.ok (), (none, schedule [] heap')) ∧
      heap'.allocations = heap.allocations := by
  rcases hufTreeFree_eq h with ⟨heap', hrun, hallocations⟩
  have hfollows := hufTreeFree_endures (I := fun _ => False) (P := fun _ => True)
    heap.allocations (some tree, heap) (Spared.refl _) trivial
  rw [hrun] at hfollows
  rcases hfollows.value_right with ⟨t, hrun', hparallel⟩
  cases hparallel.same
  exact ⟨heap', hrun, hrun', hallocations⟩

/-- The release of a tree does not fail. -/
theorem hufTreeFree_ne_error (s s' : Option HufTree × Heap) (code : HufError) :
    hufTreeFree s ≠ .ok (.error code, s') := by
  intro hrun
  have hfollows := hufTreeFree_endures (I := fun _ => False) (P := fun _ => True)
    (allocations s) s (Spared.refl _) trivial
  rw [hrun] at hfollows
  generalize hufTreeFree (schedule [] s) = other at hfollows
  cases hfollows with
  | stop hstop => exact hstop.inv
  | error hparallel => exact hparallel.inv

end

end LibHuffman
