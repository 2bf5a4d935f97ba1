/-
# Construction under failing allocations

`huf_tree_from_histogram` allocates a node for every slot that it uses. If one of
these allocations fails, the nodes that it has are all in `shadow_tree`, every one
of them once, and are released from there; the tree has no root yet. Up to there the
run is the one without failures.
-/

import LibHuffman.Allocation.Trees
import LibHuffman.Trees.Build

namespace LibHuffman

open Foundation Allocating

/-! ## Nodes of a construction -/

theorem TreeBuild.carries_nodes : Carries TreeBuild.nodes where
  load _ := rfl
  load_allocations _ _ h := by cases h; rfl
  store _ _ := rfl
  store_allocations _ _ := rfl

/-- Every slot with an address has a node of its own, and the tree has its old
root. -/
structure Sheltered (root : Option ℕ) (s : TreeBuild) : Prop where
  root : s.2.tree.root = root
  present : ∀ k p, address s.1.shadowTree (some k) = some p → s.2.heap.nodes p ≠ none
  lt_next : ∀ k p, address s.1.shadowTree (some k) = some p → p < s.2.heap.next
  injective : ∀ k m p, address s.1.shadowTree (some k) = some p →
    address s.1.shadowTree (some m) = some p → k = m

section

variable {root : Option ℕ} {s : TreeBuild}

/-- A slot gets the node that was allocated last. -/
theorem Sheltered.extend (h : Sheltered root s) {k : ℕ} (hk : k < s.1.shadowTree.length)
    (outcomes : List Bool) :
    Sheltered root ({ s.1 with shadowTree := s.1.shadowTree.set k (some s.2.heap.next) },
      { s.2 with heap := { s.2.heap.extend with allocations := outcomes } }) := by
  have hself := address_set_self hk s.2.heap.next
  have hother : ∀ m, m ≠ k → address (s.1.shadowTree.set k (some s.2.heap.next)) (some m) =
      address s.1.shadowTree (some m) := fun m hm => address_set_of_ne hm _ _
  have hnew : ∀ m, m ≠ k → address (s.1.shadowTree.set k (some s.2.heap.next)) (some m) ≠
      some s.2.heap.next := fun m hm hp =>
    absurd (h.lt_next m _ ((hother m hm).symm.trans hp)) (Nat.lt_irrefl _)
  constructor
  case root => exact h.root
  case present =>
    intro m p hp
    by_cases hmk : m = k
    · subst hmk
      cases hself.symm.trans hp
      exact fun hnone => nomatch (Heap.nodes_put s.2.heap _ _).symm.trans hnone
    · have hp' := (hother m hmk).symm.trans hp
      have hlt := h.lt_next m p hp'
      exact fun hnone => h.present m p hp'
        ((Heap.nodes_put_of_ne s.2.heap _ (Nat.ne_of_lt hlt)).symm.trans hnone)
  case lt_next =>
    intro m p hp
    by_cases hmk : m = k
    · subst hmk
      cases hself.symm.trans hp
      exact Nat.lt_succ_self _
    · exact Nat.lt_succ_of_lt (h.lt_next m p ((hother m hmk).symm.trans hp))
  case injective =>
    intro m m' p hm hm'
    by_cases hmk : m = k
    · subst hmk
      by_contra hne
      cases hself.symm.trans hm
      exact hnew m' (Ne.symm hne) hm'
    · by_cases hmk' : m' = k
      · subst hmk'
        cases hself.symm.trans hm'
        exact absurd hm (hnew m hmk)
      · exact h.injective m m' p ((hother m hmk).symm.trans hm) ((hother m' hmk').symm.trans hm')

/-- A node stays where it is when it changes. -/
theorem Sheltered.update (h : Sheltered root s) (q : ℕ) (node : HufNode) :
    Sheltered root (s.1, { s.2 with heap := s.2.heap.put q (some node) }) := by
  refine ⟨h.root, fun k p hp hnone => ?_, h.lt_next, h.injective⟩
  by_cases hpq : p = q
  · subst hpq
    exact nomatch (Heap.nodes_put s.2.heap _ _).symm.trans hnone
  · exact h.present k p hp ((Heap.nodes_put_of_ne s.2.heap _ hpq).symm.trans hnone)

/-- A routine that follows itself without failures and keeps the nodes sheltered. -/
abbrev Shelters {α : Type} (root : Option ℕ) (x : CRoutine TreeBuild α) : Prop :=
  Endures (Sheltered root) (Sheltered root) x fun _ => Sheltered root

namespace Shelters

theorem pure {α : Type} (a : α) : Shelters root (Pure.pure a : CRoutine TreeBuild α) :=
  Endures.pure fun _ h => h

/-- A new node is sheltered once it is in its slot. -/
theorem mallocShadow (k : ℕ) : Shelters root (TreeBuild.mallocShadow k) := by
  have hmalloc : Endures (Sheltered root) (Sheltered root)
      (Routine.within TreeBuild.nodes Heap.mallocNode) fun p later =>
        ∃ s outcomes, Sheltered root s ∧ p = s.2.heap.next ∧
          later = (s.1, { s.2 with heap := { s.2.heap.extend with allocations := outcomes } }) := by
    apply Endures.within TreeBuild.carries_nodes
    rintro s heap hs ⟨⟩
    apply Heap.mallocNode_endures
    · rintro heap outcomes rfl
      exact ⟨hs.root, hs.present, hs.lt_next, hs.injective⟩
    · rintro heap outcomes rfl
      exact ⟨s, outcomes, hs, rfl, rfl⟩
  apply hmalloc.bind
  intro p
  apply Endures.get_bind fun _ => rfl
  intro later
  apply Endures.demand_bind
  intro shadowTree hstore
  refine Endures.modify ?_ (fun _ => rfl) fun _ => rfl
  rintro _ ⟨rfl, s, outcomes, hs, rfl, rfl⟩
  rw [store] at hstore
  split at hstore
  · cases hstore
    exact hs.extend ‹_› outcomes
  · cases hstore

/-- A change of the node in a slot. -/
theorem updateShadow (k : ℕ) (change : HufNode → HufNode) :
    Shelters root (TreeBuild.updateShadow k change) := by
  apply Endures.fetch_bind fun _ => rfl
  intro pointer
  apply Endures.within TreeBuild.carries_nodes
  rintro s heap hs ⟨⟩
  apply Heap.update_endures
  rintro heap p node rfl - -
  exact hs.update p (change node)

/-- A change that concerns neither the slots nor the nodes nor the root. -/
theorem modify {change : TreeBuild → TreeBuild}
    (hsame : ∀ s, change (schedule [] s) = schedule [] (change s))
    (hlocals : ∀ s, (change s).1.shadowTree = s.1.shadowTree)
    (hheap : ∀ s, (change s).2.heap = s.2.heap)
    (hroot : ∀ s, (change s).2.tree.root = s.2.tree.root) :
    Shelters root (Routine.modify change) := by
  refine Endures.modify ?_ hsame fun s => ?_
  · intro s h
    refine ⟨(hroot s).trans h.root, ?_, ?_, ?_⟩
    all_goals rw [hlocals s]
    · rw [hheap s]
      exact h.present
    · rw [hheap s]
      exact h.lt_next
    · exact h.injective
  · exact congrArg Heap.allocations (hheap s)

theorem setRate (k rate : ℕ) : Shelters root (TreeBuild.setRate k rate) := by
  apply Endures.fetch_bind fun _ => rfl
  intro frequencies
  exact modify (fun _ => rfl) (fun _ => rfl) (fun _ => rfl) fun _ => rfl

theorem allocateChild (index : Option ℕ) : Shelters root (LibHuffman.allocateChild index) := by
  cases index with
  | none => exact pure ()
  | some i =>
      apply Endures.fetch_bind fun _ => rfl
      intro pointer
      apply Endures.ite
      · exact fun _ => mallocShadow i
      · exact fun _ => pure ()

theorem publishLeaf (index : Option ℕ) : Shelters root (LibHuffman.publishLeaf index) := by
  cases index with
  | none => exact pure ()
  | some i =>
      apply Endures.ite
      · intro _
        apply Endures.fetch_bind fun _ => rfl
        intro pointer
        apply Endures.fetch_bind fun _ => rfl
        intro leaves
        exact modify (fun _ => rfl) (fun _ => rfl) (fun _ => rfl) fun _ => rfl
      · exact fun _ => pure ()

theorem linkChild (node : ℕ) (index : Option ℕ) (attach : Option ℕ → HufNode → HufNode) :
    Shelters root (LibHuffman.linkChild node index attach) := by
  cases index with
  | none => exact pure ()
  | some i =>
      apply Endures.fetch_bind fun _ => rfl
      intro parent
      apply (updateShadow i _).bind
      intro _
      apply (updateShadow i _).bind
      intro _
      apply Endures.fetch_bind fun _ => rfl
      intro pointer
      apply (updateShadow node _).bind
      intro _
      exact setRate i 0

/-- One iteration, which sets the root at most when it leaves the loop. -/
theorem mergeMinimum : Endures (Sheltered root) (Sheltered root) LibHuffman.mergeMinimum
    fun step s => match step with
      | .next _ => Sheltered root s
      | .leave _ => True := by
  apply Endures.get_bind fun _ => rfl
  intro s₀
  apply Endures.strengthen _ fun s hs => hs.2
  apply Endures.fetch_bind fun _ => rfl
  intro start
  apply Endures.bind (Q := fun _ => Sheltered root)
  · exact modify (fun _ => rfl) (fun _ => rfl) (fun _ => rfl) fun _ => rfl
  intro _
  apply Endures.get_bind fun _ => rfl
  intro s₁
  apply Endures.strengthen _ fun s hs => hs.2
  generalize s₁.1.node = node
  apply Endures.demand_bind
  intro m _
  have hroot : ∀ slot, Endures (Sheltered root) (Sheltered root)
      (do TreeBuild.setRoot slot
          return .leave ()) fun (step : LoopStep Unit) s => match step with
        | .next _ => Sheltered root s
        | .leave _ => True := by
    intro slot
    apply Endures.bind (Q := fun _ _ => True)
    · apply Endures.fetch_bind fun _ => rfl
      intro pointer
      exact Endures.modify (fun _ _ => trivial) (fun _ => rfl) fun _ => rfl
    · intro _
      exact Endures.pure fun _ _ => trivial
  apply Endures.ite
  · exact fun _ => hroot _
  intro _
  apply (allocateChild _).bind
  intro _
  apply (allocateChild _).bind
  intro _
  apply (mallocShadow _).bind
  intro _
  apply (publishLeaf _).bind
  intro _
  apply (publishLeaf _).bind
  intro _
  apply (updateShadow _ _).bind
  intro _
  apply (updateShadow _ _).bind
  intro _
  apply (linkChild _ _ _).bind
  intro _
  apply (linkChild _ _ _).bind
  intro _
  apply (updateShadow _ _).bind
  intro _
  apply Endures.demand_bind
  intro rate _
  apply (setRate _ _).bind
  intro _
  apply Endures.bind (Q := fun _ => Sheltered root)
  · exact modify (fun _ => rfl) (fun _ => rfl) (fun _ => rfl) fun _ => rfl
  intro _
  apply Endures.ite
  · exact fun _ => hroot _
  · exact fun _ => Endures.pure fun _ hs => hs

end Shelters

/-! ## The release after a failure -/

theorem freeShadow_eq (h : Sheltered root s) : ∃ heap,
    freeShadow s = .ok (.ok (), (s.1, { s.2 with heap })) ∧
      heap.allocations = s.2.heap.allocations := by
  obtain ⟨t, hrun, heap, rfl, hallocations, -⟩ := Routine.forM_rule s.1.shadowTree
    (fun done t => ∃ heap, t = (s.1, { s.2 with heap }) ∧
      heap.allocations = s.2.heap.allocations ∧
      ∀ k p, done.length ≤ k → address s.1.shadowTree (some k) = some p → heap.nodes p ≠ none)
    (f := fun pointer => Routine.within TreeBuild.nodes (Heap.free pointer)) (s := s)
    (by
      rintro done pointer rest t hslots ⟨heap, rfl, hallocations, hpresent⟩
      have hslot : address s.1.shadowTree (some done.length) = pointer := by
        rw [address, hslots, Option.bind_some, List.getElem?_append_right (Nat.le_refl _),
          Nat.sub_self]
        rfl
      have hlater : ∀ k p, (done ++ [pointer]).length ≤ k →
          address s.1.shadowTree (some k) = some p → heap.nodes p ≠ none ∧ pointer ≠ some p := by
        intro k p hk hp
        rw [List.length_append, List.length_singleton] at hk
        refine ⟨hpresent k p (by omega) hp, fun heq => ?_⟩
        have := h.injective _ _ p (hslot.trans heq) hp
        omega
      cases pointer with
      | none =>
          exact ⟨_, rfl, heap, rfl, hallocations, fun k p hk hp => (hlater k p hk hp).1⟩
      | some q =>
          cases hnode : heap.nodes q with
          | none => exact absurd hnode (hpresent _ q (Nat.le_refl _) hslot)
          | some node =>
              refine ⟨_, Routine.within_of_ok rfl (Heap.free_of_some hnode), heap.put q none, rfl,
                hallocations, fun k p hk hp => ?_⟩
              rcases hlater k p hk hp with ⟨hp', hne⟩
              rwa [Heap.nodes_put_of_ne _ _ fun hpq => hne (congrArg some hpq.symm)])
    ⟨s.2.heap, rfl, rfl, fun k p _ hp => h.present k p hp⟩
  exact ⟨heap, hrun, hallocations⟩

/-- A node with a slot of its own can be released for that slot. -/
theorem freeShadow_cleans :
    Cleans (Sheltered root) (fun s => s.2.tree.root = root) freeShadow := by
  apply Cleans.of_endures
  · apply Endures.get_bind fun _ => rfl
    intro s₀
    apply Endures.strengthen (P := fun _ => True) _ fun _ _ => trivial
    apply Endures.forM
    intro pointer _
    apply Endures.within TreeBuild.carries_nodes
    intro s heap _ _
    exact Heap.free_endures pointer (fun _ _ _ => trivial) fun _ _ _ _ => trivial
  · intro s h
    rcases freeShadow_eq h with ⟨heap, hrun, hallocations⟩
    exact ⟨(), _, hrun, hallocations, h.root⟩

/-! ## The whole construction -/

/-- Before the construction no slot has an address. -/
theorem sheltered_replicate
    (hshadow : s.1.shadowTree = List.replicate (hufAsciiCount * 2) none)
    (hroot : s.2.tree.root = root) : Sheltered root s := by
  have haddress : ∀ k p, address s.1.shadowTree (some k) ≠ some p := by
    intro k p hp
    rw [hshadow, address_replicate] at hp
    cases hp
  exact ⟨hroot, fun k p hp => absurd hp (haddress k p), fun k p hp => absurd hp (haddress k p),
    fun k m p hp => absurd hp (haddress k p)⟩

/-- The construction follows the one without failures; where it fails, the tree has
its old root. -/
theorem hufTreeFromHistogram_endures (root : Option ℕ) :
    Endures (fun s => s.tree.root = root) (fun s => s.tree.root = root) hufTreeFromHistogram
      fun _ _ => True := by
  apply Endures.get_bind fun _ => rfl
  intro s₀
  apply Endures.strengthen _ fun s hs => hs.2
  have hloop : Endures (Sheltered root) (Sheltered root)
      (Routine.whileLoop .endless
        (fun _ => do return decide ((← Routine.get).1.start < hufAsciiCount * 2))
        (fun _ => mergeMinimum) (hufAsciiCount * 2 + 1) ()) fun _ _ => True := by
    apply Endures.whileLoop (fun _ => Sheltered root) fun _ => Sheltered root
    · intro _
      apply Endures.get_bind fun _ => rfl
      intro s₁
      apply Endures.pure
      rintro _ ⟨rfl, hs⟩
      split
      · exact hs
      · trivial
    · intro _
      apply Shelters.mergeMinimum.weaken
      intro step _ hs
      cases step <;> exact hs
  refine Endures.mono (Endures.withLocal (P := fun s => s.tree.root = root)
    ((hloop.onFailure freeShadow_cleans).strengthen ?_)) (fun _ hs => hs)
    (fun _ ⟨_, hs⟩ => hs) fun _ _ _ => trivial
  rintro ⟨locals, s⟩ ⟨rfl, hs⟩
  exact sheltered_replicate (s := (_, s)) rfl hs

end

end LibHuffman
