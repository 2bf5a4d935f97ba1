/-
# A construction that runs out of memory

The first iteration of `huf_tree_from_histogram` allocates its three nodes before it enters
any of them in the leaves. From then on some leaf points to a node that belongs to
`shadow_tree` only: the cleanup after a failed allocation releases the node and leaves the
leaf as it is. So the tree is what it was exactly if one of the first three allocations fails.
-/

import LibHuffman.Allocation.Creation
import LibHuffman.Encode.Histogram
import LibHuffman.Foundation.Triple
import LibHuffman.Trees.Build

namespace LibHuffman

open Foundation

/-! ## Before and after the first entry -/

/-- A leaf points to the node in the slot of its byte. -/
structure Exposed (byte p : ℕ) (b : TreeBuild) : Prop where
  lt : byte < b.1.node
  slot : b.1.shadowTree[byte]? = some (some p)
  leaf : b.2.tree.leaves[byte]? = some (some p)

/-- The tree is still the same one after some allocations that succeeded, and these are the
slots. -/
structure Opening (tree : HufTree) (first : List Bool) (count node : ℕ)
    (shadow : List (Option ℕ)) (b : TreeBuild) : Prop where
  tree : b.2.tree = tree
  granted : Granted first count
  allocations : b.2.heap.allocations = first.drop count
  shadow : b.1.shadowTree = shadow
  node : b.1.node = node

/-- The tree is still the same one, and one of the first three allocations failed. -/
def Unentered (tree : HufTree) (first : List Bool) (b : TreeBuild) : Prop :=
  b.2.tree = tree ∧ ¬ Granted first 3

/-- The first three allocations succeeded, and some leaf is exposed. -/
def Entered (first : List Bool) (b : TreeBuild) : Prop :=
  Granted first 3 ∧ ∃ byte p, Exposed byte p b

section

variable {tree : HufTree} {first : List Bool} {count node byte p k : ℕ}
  {shadow : List (Option ℕ)} {E : HufError → TreeBuild → Prop}

/-! ## The allocations -/

/-- The allocation of a node takes the next outcome. -/
theorem Heap.mallocNode_triple (heap : Heap) :
    Triple (fun h => h = heap) mallocNode
      (fun _ h => heap.allocations.head? ≠ some false ∧
        h.allocations = heap.allocations.tail)
      fun _ _ => heap.allocations.head? = some false := by
  rintro ⟨nodes, next, outcomes⟩ rfl
  cases outcomes with
  | nil =>
      refine ⟨fun _ _ hrun => ?_, fun _ _ hrun => by cases hrun⟩
      cases hrun
      exact ⟨by simp, rfl⟩
  | cons outcome later =>
      cases outcome with
      | true =>
          refine ⟨fun _ _ hrun => ?_, fun _ _ hrun => by cases hrun⟩
          cases hrun
          exact ⟨by simp, rfl⟩
      | false =>
          refine ⟨fun _ _ hrun => (by cases hrun), fun _ _ _ => rfl⟩

/-- The allocation of the node of a slot. -/
theorem mallocShadow_triple (k : ℕ) (b : TreeBuild) :
    Triple (fun b' => b' = b) (TreeBuild.mallocShadow k)
      (fun _ b' => k < b.1.shadowTree.length ∧ b.2.heap.allocations.head? ≠ some false ∧
        ∃ p heap, heap.allocations = b.2.heap.allocations.tail ∧
          b' = ({ b.1 with shadowTree := b.1.shadowTree.set k (some p) }, { b.2 with heap }))
      fun _ b' => b.2.heap.allocations.head? = some false ∧ b'.1 = b.1 ∧
        b'.2.tree = b.2.tree := by
  apply Triple.bind (Q := fun _ b' => b.2.heap.allocations.head? ≠ some false ∧
    ∃ heap, heap.allocations = b.2.heap.allocations.tail ∧ b' = (b.1, { b.2 with heap }))
  · apply Triple.within
    rintro b rfl
    refine ((Heap.mallocNode_triple b.2.heap).strengthen ?_).mono (fun _ h => h) ?_ ?_
    · rintro heap ⟨⟩
      rfl
    · intro _ heap h
      exact ⟨h.1, heap, h.2, rfl⟩
    · intro _ heap h
      exact ⟨h, rfl, rfl⟩
  · intro p
    apply Triple.fetch_bind
    intro shadow
    apply Triple.modify
    rintro _ ⟨hstore, hhead, heap, hallocations, rfl⟩
    rw [store] at hstore
    split at hstore
    · cases hstore
      exact ⟨‹_›, hhead, p, heap, hallocations, rfl⟩
    · cases hstore

/-- One more allocation before the first entry. -/
theorem mallocShadow_opening (k : ℕ) (hcount : count < 3) :
    Triple (Opening tree first count node shadow) (TreeBuild.mallocShadow k)
      (fun _ b => ∃ p, k < shadow.length ∧
        Opening tree first (count + 1) node (shadow.set k (some p)) b)
      fun _ => Unentered tree first := by
  apply Triple.fix
  intro b h
  have hhead : b.2.heap.allocations.head? = first[count]? := by
    rw [h.allocations, List.head?_drop]
  apply (mallocShadow_triple k b).mono fun _ h => h
  · rintro _ _ ⟨hk, hgranted, p, heap, hallocations, rfl⟩
    refine ⟨p, h.shadow ▸ hk, ?_⟩
    constructor
    case tree => exact h.tree
    case granted => exact h.granted.succ (hhead ▸ hgranted)
    case allocations =>
      rw [hallocations, h.allocations, List.tail_drop]
    case shadow =>
      show b.1.shadowTree.set k (some p) = _
      rw [h.shadow]
    case node => exact h.node
  · rintro _ b' ⟨hhead', -, htree⟩
    have hrefused : Refused first count := ⟨h.granted, hhead ▸ hhead'⟩
    exact ⟨htree.trans h.tree, hrefused.lt_iff.mp hcount⟩

/-- An allocation for another slot. -/
theorem mallocShadow_exposed (hk : k ≠ byte) :
    Triple (Exposed byte p) (TreeBuild.mallocShadow k) (fun _ => Exposed byte p)
      fun _ => Exposed byte p := by
  apply Triple.fix
  intro b h
  apply (mallocShadow_triple k b).mono fun _ h => h
  · rintro _ _ ⟨-, -, q, heap, -, rfl⟩
    exact ⟨h.lt, (List.getElem?_set_ne hk).trans h.slot, h.leaf⟩
  · rintro _ b' ⟨-, hlocals, htree⟩
    exact ⟨hlocals ▸ h.lt, hlocals ▸ h.slot, htree ▸ h.leaf⟩

theorem load_eq_ok {α : Type} {array : List α} {i : ℕ} {a : α} (h : load array i = .ok a) :
    array[i]? = some a := by
  rw [load] at h
  split at h
  · cases h
    assumption
  · cases h

/-- A child gets a node before the first entry. -/
theorem allocateChild_opening (hk : shadow[k]? = some none) (hcount : count < 3) :
    Triple (Opening tree first count node shadow) (allocateChild (some k))
      (fun _ b => ∃ p, k < shadow.length ∧
        Opening tree first (count + 1) node (shadow.set k (some p)) b)
      fun _ => Unentered tree first := by
  apply Triple.fetch_bind
  intro pointer
  apply Triple.known
  rintro b ⟨hload, h⟩
  have hpointer : pointer = none := by
    have hget := load_eq_ok hload
    rw [h.shadow, hk] at hget
    exact (Option.some.inj hget).symm
  rw [if_pos hpointer]
  exact (mallocShadow_opening k hcount).strengthen fun _ h => h.2

/-- A child gets a node if it has none. -/
theorem allocateChild_exposed (index : Option ℕ) :
    Triple (Exposed byte p) (allocateChild index) (fun _ => Exposed byte p)
      fun _ => Exposed byte p := by
  cases index with
  | none => exact Triple.pure fun _ h => h
  | some k =>
      apply Triple.fetch_bind
      intro pointer
      apply Triple.known
      rintro b ⟨hload, h⟩
      apply Triple.strengthen (P := Exposed byte p) _ fun _ h => h.2
      apply Triple.ite
      · intro hpointer
        apply mallocShadow_exposed
        rintro rfl
        have hslot := (load_eq_ok hload).symm.trans h.slot
        rw [hpointer] at hslot
        cases hslot
      · exact fun _ => Triple.pure fun _ h => h

/-! ## What follows the allocations -/

/-- The entry of a child. -/
theorem publishLeaf_exposed (index : Option ℕ) :
    Triple (Exposed byte p) (publishLeaf index) (fun _ => Exposed byte p) E := by
  cases index with
  | none => exact Triple.pure fun _ h => h
  | some k =>
      apply Triple.ite
      · intro _
        apply Triple.fetch_bind
        intro pointer
        apply Triple.fetch_bind
        intro leaves
        apply Triple.modify
        rintro b ⟨hstore, hload, h⟩
        refine ⟨h.lt, h.slot, ?_⟩
        show leaves[byte]? = some (some p)
        rw [store] at hstore
        split at hstore
        · cases hstore
          by_cases hk : k = byte
          · subst hk
            rw [List.getElem?_set_self ‹_›]
            exact (load_eq_ok hload).symm.trans h.slot
          · rw [List.getElem?_set_ne hk]
            exact h.leaf
        · cases hstore
      · exact fun _ => Triple.pure fun _ h => h

/-- The entry of the first child. -/
theorem publishLeaf_opening (hk : shadow[k]? = some (some p)) (hnode : k < node)
    (hbyte : k < hufAsciiCount) :
    Triple (Opening tree first count node shadow) (publishLeaf (some k))
      (fun _ => Exposed k p) E := by
  apply Triple.ite
  · intro _
    apply Triple.fetch_bind
    intro pointer
    apply Triple.fetch_bind
    intro leaves
    apply Triple.modify
    rintro b ⟨hstore, hload, h⟩
    have hslot : b.1.shadowTree[k]? = some (some p) := by rw [h.shadow, hk]
    refine ⟨by rw [h.node]; exact hnode, hslot, ?_⟩
    show leaves[k]? = some (some p)
    rw [store] at hstore
    split at hstore
    · cases hstore
      rw [List.getElem?_set_self ‹_›]
      exact (load_eq_ok hload).symm.trans hslot
    · cases hstore
  · exact fun h => absurd hbyte h

theorem updateShadow_exposed (k : ℕ) (change : HufNode → HufNode) :
    Triple (Exposed byte p) (TreeBuild.updateShadow k change) (fun _ => Exposed byte p) E := by
  apply Triple.fetch_bind
  intro pointer
  apply Triple.within
  rintro b ⟨-, h⟩
  apply Triple.demand_bind
  intro q _
  apply Triple.get_bind
  intro heap
  apply Triple.demand_bind
  intro old _
  exact Triple.modify fun _ _ => ⟨h.lt, h.slot, h.leaf⟩

theorem setRate_exposed (k rate : ℕ) :
    Triple (Exposed byte p) (TreeBuild.setRate k rate) (fun _ => Exposed byte p) E := by
  apply Triple.fetch_bind
  intro frequencies
  apply Triple.modify
  rintro b ⟨-, h⟩
  exact ⟨h.lt, h.slot, h.leaf⟩

theorem linkChild_exposed (index : Option ℕ) (attach : Option ℕ → HufNode → HufNode) :
    Triple (Exposed byte p) (linkChild node index attach) (fun _ => Exposed byte p) E := by
  cases index with
  | none => exact Triple.pure fun _ h => h
  | some k =>
      apply Triple.fetch_bind
      intro parent
      apply Triple.strengthen (P := Exposed byte p) _ fun _ h => h.2
      apply (updateShadow_exposed k _).bind
      intro _
      apply (updateShadow_exposed k _).bind
      intro _
      apply Triple.fetch_bind
      intro pointer
      apply Triple.strengthen (P := Exposed byte p) _ fun _ h => h.2
      apply (updateShadow_exposed node _).bind
      intro _
      exact setRate_exposed k 0

/-- The end of the construction, after which nothing fails. -/
theorem setRoot_leave (slot : ℕ) {P : TreeBuild → Prop} {Q : LoopStep Unit → TreeBuild → Prop}
    (h : ∀ b, Q (.leave ()) b) :
    Triple P (do
      TreeBuild.setRoot slot
      return .leave ()) Q E := by
  apply Triple.bind (Q := fun _ _ => True)
  · apply Triple.fetch_bind
    intro root
    exact Triple.modify fun _ _ => trivial
  · intro _
    exact Triple.pure fun b _ => h b

/-- What an iteration does with its nodes once a leaf is exposed. -/
def joinMinimum (node : ℕ) (m : Minimum) : CRoutine TreeBuild (LoopStep Unit) := do
  publishLeaf m.index2
  TreeBuild.updateShadow node fun self => { self with left := none }
  TreeBuild.updateShadow node fun self => { self with right := none }
  linkChild node m.index1 fun pointer self => { self with left := pointer }
  linkChild node m.index2 fun pointer self => { self with right := pointer }
  TreeBuild.updateShadow node fun self => { self with index := Int16.ofNat node }
  let rate ← Routine.demand (addRates m.rate1 m.rate2)
  TreeBuild.setRate node (ofInt64 rate)
  Routine.modify fun s => ({ s.1 with node := node + 1 }, s.2)
  if m.index1 ≠ none ∧ m.index2 = none then
    TreeBuild.setRoot (node + 1 - 1)
    return .leave ()
  return .next ()

/-- The leaf stays exposed unless the construction ends. -/
theorem joinMinimum_exposed (m : Minimum) (hnode : byte < node) :
    Triple (Exposed byte p) (joinMinimum node m)
      (fun step b => match step with
        | .next _ => Exposed byte p b ∧ ¬ (m.index1 ≠ none ∧ m.index2 = none)
        | .leave _ => True) E := by
  apply (publishLeaf_exposed _).bind
  intro _
  apply (updateShadow_exposed _ _).bind
  intro _
  apply (updateShadow_exposed _ _).bind
  intro _
  apply (linkChild_exposed _ _).bind
  intro _
  apply (linkChild_exposed _ _).bind
  intro _
  apply (updateShadow_exposed _ _).bind
  intro _
  apply Triple.demand_bind
  intro rate _
  apply (setRate_exposed _ _).bind
  intro _
  apply Triple.bind (Q := fun _ => Exposed byte p)
  · exact Triple.modify fun _ h => ⟨Nat.lt_succ_of_lt hnode, h.slot, h.leaf⟩
  intro _
  apply Triple.ite
  · exact fun _ => setRoot_leave _ fun _ => trivial
  · exact fun hnext => Triple.pure fun _ h => ⟨h, hnext⟩

/-! ## Iterations -/

/-- The search for the two minimal rates moves `start` only. -/
theorem mergeMinimum_triple {P R : TreeBuild → Prop} {Q : LoopStep Unit → TreeBuild → Prop}
    (hstart : ∀ b start, P b → R ({ b.1 with start }, b.2)) (hleave : ∀ b, Q (.leave ()) b)
    (hjoin : ∀ node m, (m.index1 = none → m.index2 = none) → m.index1 ≠ none →
      (∀ k, m.index1 = some k ∨ m.index2 = some k → k < node) →
      (∀ i, m.index1 = some i → m.index2 ≠ some i) →
      Triple (fun b => b.1.node = node ∧ R b) (do
        allocateChild m.index1
        allocateChild m.index2
        TreeBuild.mallocShadow node
        publishLeaf m.index1
        joinMinimum node m) Q E) :
    Triple P mergeMinimum Q E := by
  apply Triple.get_bind
  intro s₀
  apply Triple.strengthen (P := P) _ fun _ h => h.2
  apply Triple.fetch_bind
  intro start
  apply Triple.bind (Q := fun _ => R)
  · exact Triple.modify fun b h => hstart b start h.2
  intro _
  apply Triple.get_bind
  intro s₁
  apply Triple.demand_bind
  intro m hm
  rcases findMinimum_indices hm with ⟨hnone, hbelow, hne⟩
  apply Triple.ite
  · exact fun _ => setRoot_leave _ hleave
  · intro hsome
    apply (hjoin s₁.1.node m hnone (fun h => hsome ⟨h, hnone h⟩) hbelow hne).strengthen
    rintro _ ⟨rfl, h⟩
    exact ⟨rfl, h⟩

/-- A later iteration. -/
theorem mergeMinimum_exposed :
    Triple (Exposed byte p) mergeMinimum
      (fun step b => match step with
        | .next _ => Exposed byte p b
        | .leave _ => True) fun _ => Exposed byte p := by
  apply mergeMinimum_triple (R := Exposed byte p)
  · exact fun b start h => ⟨h.lt, h.slot, h.leaf⟩
  · exact fun _ => trivial
  intro node m _ _ _ _
  apply Triple.known
  rintro b ⟨rfl, h⟩
  apply Triple.strengthen (P := Exposed byte p) _ fun _ h => h.2
  apply (allocateChild_exposed _).bind
  intro _
  apply (allocateChild_exposed _).bind
  intro _
  apply (mallocShadow_exposed (Nat.ne_of_gt h.lt)).bind
  intro _
  apply (publishLeaf_exposed _).bind
  intro _
  apply (joinMinimum_exposed m h.lt).weaken
  intro step b hb
  cases step with
  | next _ => exact hb.1
  | leave _ => trivial

/-- The last allocation of the first iteration, after which the first leaf is exposed. -/
theorem mallocShadow_joinMinimum {m : Minimum} (hindex : m.index1 = some k)
    (hk : shadow[k]? = some (some p)) (hnode : k < node) (hbyte : k < hufAsciiCount)
    (hcount : count < 3) :
    Triple (Opening tree first count node shadow) (do
      TreeBuild.mallocShadow node
      publishLeaf m.index1
      joinMinimum node m)
      (fun step b => match step with
        | .next _ => Granted first (count + 1) ∧ Exposed k p b ∧ m.index2 ≠ none
        | .leave _ => True) fun _ => Unentered tree first := by
  apply (mallocShadow_opening node hcount).bind
  intro _
  apply Triple.ofExists
  intro q
  apply Triple.assume
  intro _
  apply Triple.known
  intro b h
  have hk' : (shadow.set node (some q))[k]? = some (some p) := by
    rw [List.getElem?_set_ne (Nat.ne_of_gt hnode), hk]
  rw [hindex]
  apply (publishLeaf_opening hk' hnode hbyte).bind
  intro _
  apply (joinMinimum_exposed m hnode).weaken
  intro step b' hb
  cases step with
  | leave _ => trivial
  | next _ =>
      refine ⟨h.granted, hb.1, fun hnone => hb.2 ⟨?_, hnone⟩⟩
      rw [hindex]
      exact Option.some_ne_none k

/-- The first iteration allocates three nodes before a leaf is exposed, or it is the only
one. -/
theorem mergeMinimum_first (s : HistogramTree) :
    Triple (fun b => b = buildStart s) mergeMinimum
      (fun step b => match step with
        | .next _ => Entered s.heap.allocations b
        | .leave _ => True) fun _ => Unentered s.tree s.heap.allocations := by
  let blank : List (Option ℕ) := List.replicate (hufAsciiCount * 2) none
  have hblank : ∀ k < hufAsciiCount, blank[k]? = some none := by
    intro k hk
    rw [List.getElem?_replicate, if_pos (by omega)]
  apply mergeMinimum_triple
    (R := Opening s.tree s.heap.allocations 0 hufAsciiCount blank)
  · rintro _ start rfl
    exact ⟨rfl, granted_zero _, rfl, rfl, rfl⟩
  · exact fun _ => trivial
  rintro node ⟨rate1, rate2, index1, index2⟩ - hsome hbelow hne
  apply Triple.known
  rintro b ⟨hb, h⟩
  obtain rfl : node = hufAsciiCount := hb.symm.trans h.node
  apply Triple.strengthen (P := Opening s.tree s.heap.allocations 0 hufAsciiCount blank) _
    fun _ h => h.2
  cases index1 with
  | none => exact absurd rfl hsome
  | some i =>
      have hi : i < hufAsciiCount := hbelow i (Or.inl rfl)
      apply (allocateChild_opening (hblank i hi) (by decide)).bind
      intro _
      apply Triple.ofExists
      intro p
      apply Triple.assume
      intro hlen
      have hslot : (blank.set i (some p))[i]? = some (some p) := List.getElem?_set_self hlen
      cases index2 with
      | none =>
          -- the only byte: two allocations, and the construction ends
          apply (mallocShadow_joinMinimum rfl hslot hi hi (by decide)).weaken
          intro step b hb
          cases step with
          | next _ => exact absurd rfl hb.2.2
          | leave _ => trivial
      | some j =>
          have hij : i ≠ j := fun h => hne i rfl (congrArg some h.symm)
          have hj : j < hufAsciiCount := hbelow j (Or.inr rfl)
          have hslot' : (blank.set i (some p))[j]? = some none := by
            rw [List.getElem?_set_ne hij, hblank j hj]
          apply (allocateChild_opening hslot' (by decide)).bind
          intro _
          apply Triple.ofExists
          intro q
          apply Triple.assume
          intro _
          have hslot'' : ((blank.set i (some p)).set j (some q))[i]? = some (some p) := by
            rw [List.getElem?_set_ne hij.symm, hslot]
          apply (mallocShadow_joinMinimum rfl hslot'' hi hi (by decide)).weaken
          intro step b hb
          cases step with
          | next _ => exact ⟨hb.1, i, p, hb.2.1⟩
          | leave _ => trivial

/-! ## The release -/

/-- Nothing is left at the address that is released, and nothing is new. -/
theorem Heap.free_triple (pointer : Option ℕ) (heap : Heap) {E : HufError → Heap → Prop} :
    Triple (fun h => h = heap) (Heap.free pointer)
      (fun _ h => ∀ q, heap.nodes q = none ∨ pointer = some q → h.nodes q = none) E := by
  cases pointer with
  | none =>
      apply Triple.pure
      rintro _ rfl q (h | h)
      · exact h
      · cases h
  | some p =>
      apply Triple.get_bind
      intro h
      apply Triple.demand_bind
      intro _ _
      apply Triple.modify
      rintro _ ⟨-, rfl⟩ q hq
      by_cases hqp : q = p
      · rw [hqp, Heap.nodes_put]
      · rw [Heap.nodes_put_of_ne _ _ hqp]
        exact hq.resolve_right fun h => hqp (Option.some.inj h).symm

/-- The cleanup does not touch the tree. -/
theorem freeShadow_tree (tree : HufTree) :
    Triple (fun b => b.2.tree = tree) freeShadow (fun _ b => b.2.tree = tree) E := by
  apply Triple.get_bind
  intro s₀
  apply Triple.strengthen (P := fun b => b.2.tree = tree) _ fun _ h => h.2
  apply Triple.forM s₀.1.shadowTree (fun _ (b : TreeBuild) => b.2.tree = tree)
  intro _ pointer _ _
  apply Triple.within
  intro b h
  apply Triple.fix
  intro heap _
  exact (Heap.free_triple pointer heap).weaken fun _ _ _ => h

/-- The node of an exposed leaf is released and the leaf stays. -/
theorem freeShadow_exposed (byte p : ℕ) :
    Triple (Exposed byte p) freeShadow
      (fun _ b => b.2.tree.leaves[byte]? = some (some p) ∧ b.2.heap.nodes p = none) E := by
  apply Triple.get_bind
  intro b₀
  apply Triple.fix
  rintro b ⟨rfl, h⟩
  apply (Triple.forM b.1.shadowTree (fun done b => b.2.tree.leaves[byte]? = some (some p) ∧
    (byte < done.length → b.2.heap.nodes p = none)) _).mono _ _ fun _ _ h => h
  · intro done pointer rest hslots
    apply Triple.within
    rintro b' ⟨hleaf, hreleased⟩
    apply Triple.fix
    rintro heap ⟨⟩
    apply (Heap.free_triple pointer b'.2.heap).weaken
    intro _ heap' hheap
    refine ⟨hleaf, fun hlt => hheap p ?_⟩
    rw [List.length_append, List.length_singleton] at hlt
    rcases Nat.lt_succ_iff_lt_or_eq.mp hlt with hlt | rfl
    · exact Or.inl (hreleased hlt)
    · have hslot := h.slot
      rw [hslots, List.getElem?_append_right (Nat.le_refl _), Nat.sub_self] at hslot
      exact Or.inr (Option.some.inj hslot)
  · rintro _ rfl
    exact ⟨h.leaf, fun hlt => absurd hlt (Nat.not_lt_zero _)⟩
  · rintro _ _ ⟨hleaf, hreleased⟩
    exact ⟨hleaf, hreleased (List.getElem?_eq_some_iff.mp h.slot).1⟩

/-! ## The whole construction -/

/-- The tree after a failure: the old one, or one with a leaf whose node is released. -/
def Abandoned (s s' : HistogramTree) : Prop :=
  (s'.tree = s.tree ∧ ¬ Granted s.heap.allocations 3) ∨
    (Granted s.heap.allocations 3 ∧
      ∃ byte p : ℕ, s'.tree.leaves[byte]? = some (some p) ∧ s'.heap.nodes p = none)

/-- A later iteration, whatever leaf is exposed. -/
theorem mergeMinimum_entered (first : List Bool) :
    Triple (Entered first) mergeMinimum
      (fun step b => match step with
        | .next _ => Entered first b
        | .leave _ => True) fun _ => Entered first := by
  apply Triple.assume
  intro hgranted
  apply Triple.ofExists
  intro byte
  apply Triple.ofExists
  intro p
  apply mergeMinimum_exposed.mono fun _ h => h
  · intro step b h
    cases step with
    | next _ => exact ⟨hgranted, byte, p, h⟩
    | leave _ => trivial
  · exact fun _ _ h => ⟨hgranted, byte, p, h⟩

/-- The loop fails before a leaf is exposed or after it. -/
theorem mergeLoop_triple (s : HistogramTree) (fuel : ℕ) :
    Triple (fun b => b = buildStart s)
      (Routine.whileLoop .endless mergeCond mergeBody fuel ()) (fun _ _ => True) fun _ b =>
      Unentered s.tree s.heap.allocations b ∨ Entered s.heap.allocations b := by
  apply (Triple.whileLoop
    (fun _ b => b = buildStart s ∨ Entered s.heap.allocations b) _ _ fuel ()).strengthen
  · exact fun _ h => Or.inl h
  · intro _
    apply Triple.get_bind
    intro b₀
    apply Triple.pure
    rintro _ ⟨rfl, h⟩
    split
    · exact h
    · trivial
  · intro _
    apply Triple.cases
    · apply (mergeMinimum_first s).mono fun _ h => h
      · intro step b h
        cases step with
        | next _ => exact Or.inr h
        | leave _ => trivial
      · exact fun _ _ h => Or.inl h
    · apply (mergeMinimum_entered s.heap.allocations).mono fun _ h => h
      · intro step b h
        cases step with
        | next _ => exact Or.inr h
        | leave _ => trivial
      · exact fun _ _ h => Or.inr h

/-- What the cleanup leaves. -/
theorem freeShadow_abandoned (s : HistogramTree) :
    Triple (fun b => Unentered s.tree s.heap.allocations b ∨ Entered s.heap.allocations b)
      freeShadow (fun _ b => Abandoned s b.2) fun _ b => Abandoned s b.2 := by
  apply Triple.cases
  · apply Triple.known
    intro b h
    apply (freeShadow_tree s.tree).mono fun _ h => h.1
    · exact fun _ _ htree => Or.inl ⟨htree, h.2⟩
    · exact fun _ _ htree => Or.inl ⟨htree, h.2⟩
  · apply Triple.assume
    intro hgranted
    apply Triple.ofExists
    intro byte
    apply Triple.ofExists
    intro p
    apply (freeShadow_exposed byte p).mono fun _ h => h
    · exact fun _ _ h => Or.inr ⟨hgranted, byte, p, h⟩
    · exact fun _ _ h => Or.inr ⟨hgranted, byte, p, h⟩

/-- A construction that fails before a leaf is exposed leaves the tree as it is; one that
fails later leaves a leaf that points to a node that is released. -/
theorem hufTreeFromHistogram_triple (s : HistogramTree) :
    Triple (fun s' => s' = s) hufTreeFromHistogram (fun _ _ => True)
      fun _ s' => Abandoned s s' := by
  apply Triple.get_bind
  intro s₀
  apply Triple.fix
  rintro s ⟨rfl, rfl⟩
  apply Triple.withLocal (Q := fun _ _ => True)
  apply Triple.onFailure
  · apply (mergeLoop_triple s _).strengthen
    rintro b ⟨hlocals, hs⟩
    exact Prod.ext hlocals hs
  · exact fun _ => freeShadow_abandoned s

end

/-- The objects after an allocation that failed. -/
def failedAllocation {α σ : Type} : Except Fault (Except HufError α × σ) → Option σ
  | .ok (.error .memoryAllocation, s) => some s
  | _ => none

theorem eq_of_failedAllocation {α σ : Type} {r : Except Fault (Except HufError α × σ)} {s : σ}
    (h : failedAllocation r = some s) : r = .ok (.error .memoryAllocation, s) := by
  unfold failedAllocation at h
  split at h
  · cases h
    rfl
  · cases h

/-- A construction that runs out of memory in a reset tree leaves it reset, and no leaf
points to a node that is released, exactly if one of the first three allocations fails. -/
theorem hufTreeFromHistogram_restores_iff {s s' : HistogramTree}
    (hreset : s.tree = ⟨noLeaves, none⟩)
    (hrun : hufTreeFromHistogram s = .ok (.error .memoryAllocation, s')) :
    (s'.tree = ⟨noLeaves, none⟩ ↔ false ∈ s.heap.allocations.take 3) ∧
      ((∀ byte p : ℕ, s'.tree.leaves[byte]? = some (some p) → s'.heap.nodes p ≠ none) ↔
        false ∈ s.heap.allocations.take 3) := by
  have hblank : s'.tree = ⟨noLeaves, none⟩ →
      ∀ byte p : ℕ, s'.tree.leaves[byte]? ≠ some (some p) := by
    intro htree byte p hleaf
    rw [htree, noLeaves, List.getElem?_replicate] at hleaf
    split at hleaf <;> cases hleaf
  rcases (hufTreeFromHistogram_triple s s rfl).2 .memoryAllocation s' hrun with
    ⟨htree, hrefused⟩ | ⟨hgranted, byte, p, hleaf, hreleased⟩
  · have hfalse := Classical.not_not.mp hrefused
    have htree' := htree.trans hreset
    exact ⟨iff_of_true htree' hfalse,
      iff_of_true (fun byte p hleaf => absurd hleaf (hblank htree' byte p)) hfalse⟩
  · exact ⟨iff_of_false (fun htree => hblank htree byte p hleaf) hgranted,
      iff_of_false (fun h => h byte p hleaf hreleased) hgranted⟩

/-- The second allocation fails: everything is as it was. -/
theorem hufTreeFromHistogram_restores_iff_second :
    ∃ s', hufTreeFromHistogram ⟨⟨noLeaves, none⟩, blockHistogram [1, 2, 2],
        ⟨fun _ => none, 0, [true, false]⟩⟩ = .ok (.error .memoryAllocation, s') ∧
      (s'.tree = ⟨noLeaves, none⟩ ↔ false ∈ [true, false].take 3) ∧
      ((∀ byte p : ℕ, s'.tree.leaves[byte]? = some (some p) → s'.heap.nodes p ≠ none) ↔
        false ∈ [true, false].take 3) := by
  let s : HistogramTree :=
    ⟨⟨noLeaves, none⟩, blockHistogram [1, 2, 2], ⟨fun _ => none, 0, [true, false]⟩⟩
  have hsome : (failedAllocation (hufTreeFromHistogram s)).isSome := by decide +kernel
  rcases Option.isSome_iff_exists.mp hsome with ⟨s', hs'⟩
  have hrun := eq_of_failedAllocation hs'
  exact ⟨s', hrun, hufTreeFromHistogram_restores_iff (s := s) rfl hrun⟩

/-- The fourth allocation fails: the leaf of the first byte points to the node that was
allocated first, which is released. -/
theorem hufTreeFromHistogram_abandons :
    ∃ s', hufTreeFromHistogram ⟨⟨noLeaves, none⟩, blockHistogram [1, 2, 2],
        ⟨fun _ => none, 0, [true, true, true, false]⟩⟩ = .ok (.error .memoryAllocation, s') ∧
      s'.tree ≠ ⟨noLeaves, none⟩ ∧ s'.tree.leaves[1]? = some (some 0) ∧
      s'.heap.nodes 0 = none := by
  have hany : (failedAllocation (hufTreeFromHistogram ⟨⟨noLeaves, none⟩,
      blockHistogram [1, 2, 2], ⟨fun _ => none, 0, [true, true, true, false]⟩⟩)).any fun s' =>
        decide (s'.tree.leaves[1]? = some (some 0) ∧ s'.heap.nodes 0 = none) := by decide +kernel
  rcases (Option.any_eq_true _ _).mp hany with ⟨s', hs', hleaf⟩
  rcases of_decide_eq_true hleaf with ⟨hleaf, hreleased⟩
  refine ⟨s', eq_of_failedAllocation hs', fun htree => ?_, hleaf, hreleased⟩
  rw [htree] at hleaf
  cases hleaf

end LibHuffman
