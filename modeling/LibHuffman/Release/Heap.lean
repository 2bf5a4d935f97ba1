/-
# Nodes that a run has allocated

A heap is compared with an earlier one. The cells of a run are the addresses of the nodes
that it has allocated since then and not released; everywhere else the heap is as it was.
A run that has no cells left has leaked nothing, and has released nothing that is not its
own.
-/

import LibHuffman.Allocation.Trees
import LibHuffman.Foundation.Triple

namespace LibHuffman

open Foundation Allocating

/-! ## Cells -/

/-- There is no node from the next address on. -/
def Heap.Bounded (heap : Heap) : Prop := ∀ p, heap.next ≤ p → heap.nodes p = none

/-- Since the heap `base`, the nodes at `cells` were allocated and not released, and no
other address has changed. -/
structure GrownBy (base : Heap) (cells : Set ℕ) (heap : Heap) : Prop where
  fresh : ∀ p ∈ cells, base.next ≤ p
  outside : ∀ p, p ∉ cells → heap.nodes p = base.nodes p
  next_le : base.next ≤ heap.next

section

variable {base heap : Heap} {cells cells' : Set ℕ} {p : ℕ}

theorem GrownBy.refl (base : Heap) : GrownBy base ∅ base :=
  ⟨fun _ hp => hp.elim, fun _ _ => rfl, Nat.le_refl _⟩

/-- A run without cells leaves the nodes as they were. -/
theorem GrownBy.nodes_eq (h : GrownBy base ∅ heap) : heap.nodes = base.nodes :=
  funext fun p => h.outside p (Set.notMem_empty p)

/-- The outcomes of the allocations do not matter. -/
theorem GrownBy.of_nodes {heap' : Heap} (h : GrownBy base cells heap)
    (hnodes : heap'.nodes = heap.nodes) (hnext : heap'.next = heap.next) :
    GrownBy base cells heap' :=
  ⟨h.fresh, fun p hp => (congrFun hnodes p).trans (h.outside p hp), hnext ▸ h.next_le⟩

theorem GrownBy.mono (h : GrownBy base cells heap) (hsub : cells ⊆ cells')
    (hfresh : ∀ p ∈ cells', base.next ≤ p) : GrownBy base cells' heap :=
  ⟨hfresh, fun p hp => h.outside p fun hmem => hp (hsub hmem), h.next_le⟩

/-- A new node is a cell. -/
theorem GrownBy.extend (h : GrownBy base cells heap) (outcomes : List Bool) :
    GrownBy base (insert heap.next cells) { heap.extend with allocations := outcomes } := by
  constructor
  case fresh =>
    intro p hp
    rcases hp with rfl | hp
    · exact h.next_le
    · exact h.fresh p hp
  case outside =>
    intro p hp
    rcases not_or.mp hp with ⟨hne, hp⟩
    exact (Heap.nodes_put_of_ne heap _ hne).trans (h.outside p hp)
  case next_le => exact Nat.le_succ_of_le h.next_le

/-- A change of a cell. -/
theorem GrownBy.put (h : GrownBy base cells heap) (hp : p ∈ cells) (node : Option HufNode) :
    GrownBy base cells (heap.put p node) := by
  refine ⟨h.fresh, fun q hq => ?_, h.next_le⟩
  have hne : q ≠ p := fun heq => hq (heq ▸ hp)
  exact (Heap.nodes_put_of_ne heap node hne).trans (h.outside q hq)

/-- A cell that is released is none any more. -/
theorem GrownBy.release (h : GrownBy base cells heap) (hbase : base.Bounded) (hp : p ∈ cells)
    (hcells : ∀ q ∈ cells, q = p ∨ q ∈ cells') (hsub : cells' ⊆ cells) :
    GrownBy base cells' (heap.put p none) := by
  constructor
  case fresh => exact fun q hq => h.fresh q (hsub hq)
  case outside =>
    intro q hq
    by_cases hqp : q = p
    · rw [hqp, Heap.nodes_put, hbase p (h.fresh p hp)]
    · rw [Heap.nodes_put_of_ne _ _ hqp]
      exact h.outside q fun hmem => (hcells q hmem).elim hqp hq
  case next_le => exact h.next_le

/-- All the cells of a tree are released at once. -/
theorem GrownBy.released {ps : List ℕ} {heap' : Heap} (h : GrownBy base {p | p ∈ ps} heap)
    (hbase : base.Bounded) (hreleased : Released ps heap heap') : GrownBy base ∅ heap' := by
  constructor
  case fresh => exact fun _ hp => hp.elim
  case outside =>
    intro p _
    by_cases hp : p ∈ ps
    · rw [hreleased.released p hp, hbase p (h.fresh p hp)]
    · rw [hreleased.outside p hp]
      exact h.outside p hp
  case next_le =>
    rw [hreleased.next]
    exact h.next_le

end

/-! ## Runs of any kind -/

/-- What holds of a routine under every schedule is a triple. -/
theorem Endures.triple {σ α : Type} [Allocating σ] {I P : σ → Prop} {x : CRoutine σ α}
    {Q : α → σ → Prop} (h : Endures I P x Q) : Triple P x Q fun _ => I := by
  intro s hs
  have hfollows := h (allocations s) s (Spared.refl _) hs
  apply And.intro
  · intro a s' hrun
    rw [hrun] at hfollows
    rcases hfollows.value_right with ⟨_, -, hparallel⟩
    exact hparallel.inv
  · intro code s' hrun
    rw [hrun] at hfollows
    generalize x (schedule [] s) = other at hfollows
    cases hfollows with
    | stop hstop => exact hstop.inv
    | error hparallel => exact hparallel.inv

namespace Heap

theorem Bounded.lt {heap : Heap} {p : ℕ} {node : HufNode} (h : heap.Bounded)
    (hnode : heap.nodes p = some node) : p < heap.next := by
  by_contra hle
  rw [h p (Nat.not_lt.mp hle)] at hnode
  cases hnode

theorem Bounded.put {heap : Heap} {p : ℕ} (h : heap.Bounded) (hp : p < heap.next)
    (node : Option HufNode) : (heap.put p node).Bounded := by
  intro q hq
  have hne : q ≠ p := Nat.ne_of_gt (Nat.lt_of_lt_of_le hp hq)
  exact (nodes_put_of_ne heap node hne).trans (h q hq)

theorem Bounded.extend {heap : Heap} (h : heap.Bounded) : heap.extend.Bounded := by
  intro q hq
  have hne : q ≠ heap.next := Nat.ne_of_gt hq
  exact (nodes_put_of_ne heap _ hne).trans (h q (Nat.le_of_succ_le hq))

theorem mallocNode_bounded :
    Triple Bounded mallocNode (fun _ => Bounded) fun _ => Bounded :=
  (mallocNode_endures (fun _ _ h => h) fun _ _ h => h.extend).triple

theorem update_bounded (pointer : Option ℕ) (change : HufNode → HufNode) :
    Triple Bounded (update pointer change) (fun _ => Bounded) fun _ => Bounded := by
  apply Endures.triple
  apply update_endures
  intro heap p node h _ hnode
  exact h.put (h.lt hnode) _

end Heap

/-- A run on the heap of a tree keeps it bounded. -/
theorem TreeStore.within_bounded {α : Type} {x : CRoutine Heap α}
    (h : Triple Heap.Bounded x (fun _ => Heap.Bounded) fun _ => Heap.Bounded) :
    Triple (fun s : TreeStore => s.heap.Bounded) (Routine.within TreeStore.nodes x)
      (fun _ s => s.heap.Bounded) fun _ s => s.heap.Bounded := by
  apply Triple.within
  intro s hs
  apply h.strengthen
  rintro _ ⟨⟩
  exact hs

/-! ## Trees whose nodes are the cells -/

/-- There is a tree at the root, and its nodes are the cells. -/
structure Grows (base : Heap) (s : TreeStore) : Prop where
  rooted : ∃ tree ps, TreeAt s.heap s.tree.root tree ps ∧ ps.Nodup ∧
    (∀ p ∈ ps, p < s.heap.next) ∧ GrownBy base {p | p ∈ ps} s.heap
  bounded : s.heap.Bounded

/-- There is no tree, and there are no cells. -/
structure Bare (base : Heap) (s : TreeStore) : Prop where
  root : s.tree.root = none
  grown : GrownBy base ∅ s.heap
  bounded : s.heap.Bounded

section

variable {base : Heap}

theorem Bare.grows {s : TreeStore} (h : Bare base s) : Grows base s := by
  refine ⟨⟨.nil, [], h.root ▸ .absent, List.nodup_nil, fun _ hp => absurd hp List.not_mem_nil, ?_⟩,
    h.bounded⟩
  exact h.grown.mono (Set.empty_subset _) fun _ hp => absurd hp List.not_mem_nil

/-- An empty tree on the nodes of the caller. -/
theorem bare_of_nodes {s : TreeStore} (hbase : base.Bounded) (hroot : s.tree.root = none)
    (hnodes : s.heap.nodes = base.nodes) (hnext : s.heap.next = base.next) : Bare base s := by
  refine ⟨hroot, (GrownBy.refl base).of_nodes hnodes hnext, fun p hp => ?_⟩
  rw [hnext] at hp
  exact (congrFun hnodes p).trans (hbase p hp)

/-- The outcomes of the allocations do not matter. -/
theorem Grows.of_nodes {tree : HufTree} {heap heap' : Heap} (h : Grows base ⟨tree, heap⟩)
    (hnodes : heap'.nodes = heap.nodes) (hnext : heap'.next = heap.next) :
    Grows base ⟨tree, heap'⟩ := by
  rcases h with ⟨⟨shape, ps, hat, hnodup, hlt, hgrown⟩, hbounded⟩
  refine ⟨⟨shape, ps, hat.frame fun p _ => congrFun hnodes p, hnodup, hnext ▸ hlt,
    hgrown.of_nodes hnodes hnext⟩, fun p hp => ?_⟩
  rw [hnext] at hp
  exact (congrFun hnodes p).trans (hbounded p hp)

theorem hufDeserializeTree_bounded (buf : List Int16) (fuel : ℕ) (slot : NodeSlot)
    (pos bufLen : ℕ) :
    Triple (fun s : TreeStore => s.heap.Bounded) (hufDeserializeTree buf fuel slot pos bufLen)
      (fun _ s => s.heap.Bounded) fun _ s => s.heap.Bounded := by
  induction fuel generalizing slot pos bufLen with
  | zero => exact fun _ _ => ⟨fun _ _ hrun => (by cases hrun), fun _ _ hrun => (by cases hrun)⟩
  | succ fuel ih =>
      apply Triple.ite
      · exact fun _ => Triple.pure fun _ h => h
      intro _
      apply Triple.demand_bind
      intro word _
      apply Triple.ite
      · exact fun _ => Triple.pure fun _ h => h
      intro _
      apply (TreeStore.within_bounded Heap.mallocNode_bounded).bind
      intro p
      have hassign : Triple (fun s : TreeStore => s.heap.Bounded) (slot.assign p)
          (fun _ s => s.heap.Bounded) fun _ s => s.heap.Bounded := by
        cases slot with
        | root => exact Triple.modify fun _ h => h
        | left q => exact TreeStore.within_bounded (Heap.update_bounded _ _)
        | right q => exact TreeStore.within_bounded (Heap.update_bounded _ _)
      apply hassign.bind
      intro _
      apply (TreeStore.within_bounded (Heap.update_bounded _ _)).bind
      intro _
      apply (ih _ _ _).bind
      intro leftBranchLen
      apply (ih _ _ _).bind
      intro rightBranchLen
      exact Triple.pure fun _ h => h

/-- A tree that was planted at the root has the new nodes as its cells. -/
theorem Planted.grows {tree : BinaryTree Int16} {s s' : TreeStore}
    (h : Planted .root tree (schedule [] s) (schedule [] s')) (hs : Bare base s)
    (hbounded : s'.heap.Bounded) (hbase : base.Bounded) : Grows base s' := by
  have hnext : s'.heap.next = s.heap.next + tree.numNodes := h.next
  have hpointer : s'.tree.root = plantedPointer tree s.heap.next := by
    have hroot : s'.tree = _ := h.root
    rw [hroot]
    show (NodeSlot.fill .root (plantedPointer tree s.heap.next) (schedule [] s)).tree.root = _
    cases plantedPointer tree s.heap.next with
    | none => exact hs.root
    | some p => rfl
  have hbefore : ∀ q < s.heap.next, s'.heap.nodes q = s.heap.nodes q := by
    intro q hq
    refine (h.before q hq).trans ?_
    show (NodeSlot.fill .root (plantedPointer tree s.heap.next) (schedule [] s)).heap.nodes q = _
    cases plantedPointer tree s.heap.next <;> rfl
  refine ⟨⟨tree, _, ?_, List.nodup_range' (s := s.heap.next) (n := tree.numNodes), ?_, ?_⟩,
    hbounded⟩
  · rw [hpointer]
    exact h.planted.frame fun _ _ => rfl
  · intro p hp
    rw [hnext]
    exact (List.mem_range'_1.mp hp).2
  · constructor
    case fresh =>
      intro p hp
      exact Nat.le_trans hs.grown.next_le (List.mem_range'_1.mp hp).1
    case outside =>
      intro p hp
      by_cases hlt : p < s.heap.next
      · rw [hbefore p hlt]
        exact hs.grown.outside p (Set.notMem_empty p)
      · have hle : s'.heap.next ≤ p := by
          by_contra hmem
          exact hp (List.mem_range'_1.mpr ⟨Nat.not_lt.mp hlt, hnext ▸ Nat.not_le.mp hmem⟩)
        rw [hbounded p hle, hbase p (Nat.le_trans hs.grown.next_le (Nat.not_lt.mp hlt))]
    case next_le =>
      have := hs.grown.next_le
      omega

/-- A deserialization leaves a tree, also where it runs out of memory, and no other nodes. -/
theorem hufTreeDeserialize_grows (hbase : base.Bounded) (buf : List Int16) (len : ℕ) :
    Triple (Bare base) (hufTreeDeserialize buf len) (fun _ => Grows base)
      fun _ => Grows base := by
  apply Triple.fix
  intro s₀ hs
  have hgrows : ∀ s : TreeStore, (∃ tree, Planted .root tree (schedule [] s₀) (schedule [] s)) ∧
      s.heap.Bounded → Grows base s := fun s ⟨⟨tree, h⟩, hbounded⟩ => h.grows hs hbounded hbase
  have hvalid : NodeSlot.Valid s₀ .root := trivial
  have hplanted := (@hufDeserializeTree_endures _ buf (len + 1) 0 len s₀ hvalid).triple
  apply Triple.bind
  · apply (hplanted.and (hufDeserializeTree_bounded buf (len + 1) .root 0 len)).mono
    · rintro s rfl
      exact ⟨rfl, hs.bounded⟩
    · exact fun _ => hgrows
    · exact fun _ => hgrows
  · intro _
    exact Triple.pure fun _ h => h

/-- A released tree leaves nothing. -/
theorem releaseNodes_grows (hbase : base.Bounded) {s : TreeStore} (h : Grows base s) :
    ∃ heap, releaseNodes s.tree.root s.heap = .ok (.ok (), heap) ∧ GrownBy base ∅ heap ∧
      heap.Bounded := by
  rcases h with ⟨⟨tree, ps, hat, hnodup, hlt, hgrown⟩, hbounded⟩
  rcases releaseNodes_eq ⟨ps, hat, hnodup, hlt⟩ with ⟨heap, ps', hrun, hat', hreleased⟩
  rcases hat.unique hat' with ⟨-, rfl⟩
  refine ⟨heap, hrun, hgrown.released hbase hreleased, fun p hp => ?_⟩
  rw [hreleased.next] at hp
  rw [hreleased.outside p fun hmem => absurd (hlt p hmem) (Nat.not_lt.mpr hp)]
  exact hbounded p hp

theorem hufTreeReset_grows (hbase : base.Bounded) :
    Triple (Grows base) hufTreeReset (fun _ => Bare base) fun _ => Grows base := by
  apply Triple.fix
  intro s hs
  rcases releaseNodes_grows hbase hs with ⟨heap, hrun, hgrown, hbounded⟩
  have hreset : hufTreeReset s = .ok (.ok (), ⟨⟨noLeaves, none⟩, heap⟩) := by
    rw [hufTreeReset, Routine.get_bind_apply, Routine.bind_of_ok (Routine.within_of_ok rfl hrun)]
    rfl
  rintro _ rfl
  refine ⟨fun _ s' hrun' => ?_, fun _ s' hrun' => ?_⟩
  · cases hreset.symm.trans hrun'
    exact ⟨rfl, hgrown, hbounded⟩
  · cases hreset.symm.trans hrun'

/-- The release of a tree leaves the nodes as they were in the beginning. -/
theorem hufTreeFree_grows (hbase : base.Bounded) :
    Triple (fun s : Option HufTree × Heap => ∀ tree, s.1 = some tree → Grows base ⟨tree, s.2⟩)
      hufTreeFree (fun _ s => s.2.nodes = base.nodes) fun _ s => s.2.nodes = base.nodes := by
  rintro ⟨tree, heap⟩ h
  cases tree with
  | none => exact ⟨fun _ _ hrun => (by cases hrun), fun _ _ hrun => (by cases hrun)⟩
  | some tree =>
      rcases releaseNodes_grows hbase (h tree rfl) with ⟨heap', hrun, hgrown, -⟩
      have hfree : hufTreeFree (some tree, heap) = .ok (.ok (), (none, heap')) := by
        rw [hufTreeFree, Routine.get_bind_apply, deref_some, Routine.demand_ok_bind_apply,
          Routine.bind_of_ok (Routine.within_of_ok rfl hrun)]
        rfl
      rw [hfree]
      refine ⟨fun _ _ hok => ?_, fun _ _ hok => by cases hok⟩
      cases hok
      exact hgrown.nodes_eq

end

/-! ## Objects that have a tree -/

section

variable {γ ρ ω : Type} {tree : γ → Option HufTree} {setTree : Option HufTree → γ → γ}
  {base : Heap}

/-- The nodes of the tree that an object has, if there are both, are the cells. -/
def Clearable (tree : γ → Option HufTree) (base : Heap) (s : SelfRun γ ρ ω) : Prop :=
  ∀ t, s.1.bind tree = some t → Grows base ⟨t, s.2.heap⟩

/-- The nodes of the caller have not changed, and the object has none. -/
structure Unplanted (tree : γ → Option HufTree) (base : Heap) (s : SelfRun γ ρ ω) : Prop where
  nodes : s.2.heap.nodes = base.nodes
  next : s.2.heap.next = base.next
  root : (s.1.bind tree).bind HufTree.root = none

theorem Unplanted.clearable {s : SelfRun γ ρ ω} (h : Unplanted tree base s)
    (hbase : base.Bounded) : Clearable tree base s := by
  intro t ht
  have hroot : t.root = none := by
    have hroot := h.root
    rwa [ht] at hroot
  exact (bare_of_nodes hbase hroot h.nodes h.next).grows

/-- A routine on an object that is not the tree. -/
theorem Unplanted.within {α β : Type} {place : Place Fault (SelfRun γ ρ ω) β}
    (hstore : ∀ b (s : SelfRun γ ρ ω), Unplanted tree base s →
      Unplanted tree base (place.store b s)) (x : CRoutine β α) :
    Triple (Unplanted tree base) (Routine.within place x) (fun _ => Unplanted tree base)
      fun _ => Unplanted tree base := by
  apply Triple.within
  intro s hs b _
  exact ⟨fun _ b' _ => hstore b' s hs, fun _ b' _ => hstore b' s hs⟩

/-- A change of the object that keeps its tree. -/
theorem Unplanted.onSelf {change : γ → γ} (htree : ∀ self, tree (change self) = tree self)
    {s : SelfRun γ ρ ω} (h : Unplanted tree base s) :
    Unplanted tree base (SelfRun.onSelf change s) := by
  rcases s with ⟨_ | self, world⟩
  · exact h
  · exact ⟨h.nodes, h.next, (congrArg (Option.bind · HufTree.root) (htree self)).trans h.root⟩

/-- The initialization of a pointer that is not the tree. -/
theorem Unplanted.creating {α β : Type} {field : γ → Option α} {assign : Option α → γ → γ}
    (htree : ∀ object self, tree (assign object self) = tree self) (x : CRoutine (Creation α) β) :
    Triple (Unplanted tree base)
      (Routine.within (SelfRun.creating field assign : Place Fault (SelfRun γ ρ ω) _) x)
      (fun _ => Unplanted tree base) fun _ => Unplanted tree base := by
  apply Unplanted.within
  intro c s hs
  apply Unplanted.onSelf (htree c.object)
  exact ⟨hs.nodes, hs.next, hs.root⟩

/-- A tree that is created has no nodes. -/
theorem hufTreeInit_unplanted :
    Triple (fun c : Creation HufTree => c.object.bind HufTree.root = none) hufTreeInit
      (fun _ c => c.object.bind HufTree.root = none)
      fun _ c => c.object.bind HufTree.root = none := by
  have hmalloc : Triple (fun c : Creation HufTree => c.object.bind HufTree.root = none)
      Creation.malloc (fun _ c => c.object.bind HufTree.root = none)
      fun _ c => c.object.bind HufTree.root = none := by
    apply Triple.within
    intro c hc _ _
    exact ⟨fun _ _ _ => hc, fun _ _ _ => hc⟩
  apply hmalloc.bind
  intro _
  apply Triple.bind (Q := fun _ c => c.object.bind HufTree.root = none)
  · exact Triple.modify fun _ _ => rfl
  intro _
  apply hmalloc.bind
  intro _
  exact Triple.modify fun _ _ => rfl

/-- The initialization of the tree of an object. -/
theorem Unplanted.creatingTree (hset : ∀ t self, tree (setTree t self) = t) :
    Triple (Unplanted tree base)
      (Routine.within (SelfRun.creating tree setTree : Place Fault (SelfRun γ ρ ω) _) hufTreeInit)
      (fun _ => Unplanted tree base) fun _ => Unplanted tree base := by
  apply Triple.within
  rintro ⟨_ | self, world⟩ hs
  · exact fun _ hload => nomatch hload
  have hstored : ∀ c : Creation HufTree, c.object.bind HufTree.root = none →
      Unplanted tree base ((SelfRun.creating tree setTree).store c (some self, world)) :=
    fun c hc => ⟨hs.nodes, hs.next,
      (congrArg (Option.bind · HufTree.root) (hset c.object self)).trans hc⟩
  apply hufTreeInit_unplanted.mono
  · rintro _ ⟨⟩
    exact hs.root
  · exact fun _ => hstored
  · exact fun _ => hstored

/-- The initialization of the two buffered streams of an object. -/
theorem Unplanted.creatingStreams {stored : Place Fault (SelfRun γ ρ ω) (HufConfig ρ ω)}
    {writer : γ → Option (HufBufioReadWriter ω)}
    {setWriter : Option (HufBufioReadWriter ω) → γ → γ}
    {reader : γ → Option (HufBufioReadWriter ρ)}
    {setReader : Option (HufBufioReadWriter ρ) → γ → γ}
    (hstored : ∀ config (s : SelfRun γ ρ ω), Unplanted tree base s →
      Unplanted tree base (stored.store config s))
    (hwriter : ∀ bufio self, tree (setWriter bufio self) = tree self)
    (hreader : ∀ bufio self, tree (setReader bufio self) = tree self) :
    Triple (Unplanted tree base)
      (do
        let config ← Routine.within stored Routine.get
        Routine.within (SelfRun.creating writer setWriter)
          (hufBufioReadWriterInit config.writer config.writerBufferSize)
        let config ← Routine.within stored Routine.get
        Routine.within (SelfRun.creating reader setReader)
          (hufBufioReadWriterInit config.reader config.readerBufferSize))
      (fun _ => Unplanted tree base) fun _ => Unplanted tree base := by
  apply (Unplanted.within hstored _).bind
  intro config
  apply (Unplanted.creating hwriter _).bind
  intro _
  apply (Unplanted.within hstored _).bind
  intro config
  exact Unplanted.creating hreader _

/-- The release of the tree of an object leaves the nodes as they were in the beginning. -/
theorem releasingTree_nodes (hbase : base.Bounded) :
    Triple (Clearable tree base)
      (Routine.within (SelfRun.releasingTree tree setTree : Place Fault (SelfRun γ ρ ω) _)
        hufTreeFree)
      (fun _ s => s.2.heap.nodes = base.nodes) fun _ s => s.2.heap.nodes = base.nodes := by
  apply Triple.within
  rintro ⟨_ | self, world⟩ hs
  · exact fun _ hload => nomatch hload
  · apply (hufTreeFree_grows hbase).strengthen
    rintro _ ⟨⟩
    exact hs

/-- The release of the other pointers does not reach the nodes. -/
theorem releasing_nodes {α β : Type} {field : γ → Option α} {assign : Option α → γ → γ}
    (x : CRoutine (Option α) β) :
    Triple (fun s : SelfRun γ ρ ω => s.2.heap.nodes = base.nodes)
      (Routine.within (SelfRun.releasing field assign) x)
      (fun _ s => s.2.heap.nodes = base.nodes) fun _ s => s.2.heap.nodes = base.nodes := by
  apply Triple.within
  exact fun s hs _ _ => ⟨fun _ _ _ => hs, fun _ _ _ => hs⟩

/-- A call that releases its object leaves the nodes of its caller as they were. -/
theorem nodes_eq_of_call {body cleanup : CRoutine (SelfRun γ ρ ω) Unit}
    {world world' : World ρ ω} {r : Except HufError Unit}
    (hbody : Triple (fun s => s = (none, world)) body (fun _ => Clearable tree base)
      fun _ => Clearable tree base)
    (hcleanup : Triple (Clearable tree base) cleanup (fun _ s => s.2.heap.nodes = base.nodes)
      fun _ s => s.2.heap.nodes = base.nodes)
    (hrun : Routine.withLocal none (Routine.ensuring body cleanup) world = .ok (r, world')) :
    world'.heap.nodes = base.nodes := by
  rcases Routine.withLocal_eq_ok hrun with ⟨last, hrun⟩
  rcases Routine.ensuring_eq_ok hrun with ⟨s, q, hrun, hclean⟩
  have hs : Clearable tree base s := by
    cases r with
    | error code => exact (hbody _ rfl).2 code s hrun
    | ok a => exact (hbody _ rfl).1 a s hrun
  cases q with
  | error code => exact (hcleanup s hs).2 code _ hclean
  | ok a => exact (hcleanup s hs).1 a _ hclean

end

end LibHuffman
