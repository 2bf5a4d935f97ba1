/-
# Nodes under construction

The construction works on slots and keeps in `shadow_tree` the address of the node
of every slot. A `Plan` describes its nodes by slots alone: who their parent and
their children are, and which of them are entered in the leaves of the tree.
`Renders` says that the heap holds the planned nodes, with addresses in place of
slots. Every operation of the construction is a change of the plan.
-/

import LibHuffman.Trees.Linked
import Mathlib.Logic.Function.Basic

namespace LibHuffman

open Foundation

/-- A node whose parent and children are slots. -/
structure SlotNode where
  index : Int16
  parent : Option ℕ
  left : Option ℕ
  right : Option ℕ

/-- What the construction has built. -/
@[ext] structure Plan where
  slot : ℕ → Option SlotNode
  /-- The bytes that are entered in the leaves. -/
  published : ℕ → Bool
  rates : List ℕ
  node : ℕ

/-- The address of the node of a slot. -/
def address (shadow : List (Option ℕ)) (slot : Option ℕ) : Option ℕ :=
  slot.bind fun k => shadow[k]?.join

/-- A node with addresses in place of slots. -/
def SlotNode.render (shadow : List (Option ℕ)) (node : SlotNode) : HufNode where
  index := node.index
  parent := address shadow node.parent
  left := address shadow node.left
  right := address shadow node.right

/-- A slot is the parent or a child of a node. -/
def SlotNode.Refers (node : SlotNode) (k : ℕ) : Prop :=
  node.parent = some k ∨ node.left = some k ∨ node.right = some k

namespace Plan

/-- Allocate the node of a slot. -/
def malloc (k : ℕ) (plan : Plan) : Plan :=
  { plan with slot := Function.update plan.slot k (some ⟨0, none, none, none⟩) }

/-- Change the node of a slot. -/
def update (k : ℕ) (node : SlotNode) (plan : Plan) : Plan :=
  { plan with slot := Function.update plan.slot k (some node) }

/-- Set the rate of a slot. -/
def setRate (k rate : ℕ) (plan : Plan) : Plan := { plan with rates := plan.rates.set k rate }

/-- Enter a byte in the leaves. -/
def publish (k : ℕ) (plan : Plan) : Plan :=
  { plan with published := Function.update plan.published k true }

/-- The node of a slot, blank if it has none. -/
def get (k : ℕ) (plan : Plan) : SlotNode := (plan.slot k).getD ⟨0, none, none, none⟩

/-- Allocate the node of a child that has none. -/
def allocateChild (index : Option ℕ) (plan : Plan) : Plan :=
  match index with
  | none => plan
  | some k => if plan.slot k = none then plan.malloc k else plan

/-- Enter a child that stands for a byte in the leaves. -/
def publishLeaf (index : Option ℕ) (plan : Plan) : Plan :=
  match index with
  | none => plan
  | some k => if k < hufAsciiCount then plan.publish k else plan

/-- Link a child to the node of slot `n`, and take its rate out. -/
def linkChild (n : ℕ) (index : Option ℕ) (attach : Option ℕ → SlotNode → SlotNode)
    (plan : Plan) : Plan :=
  match index with
  | none => plan
  | some k =>
    let linked := plan.update k { plan.get k with index := Int16.ofNat k, parent := some n }
    (linked.update n (attach (some k) (plan.get n))).setRate k 0

section

variable {plan : Plan} {node : SlotNode} {k m : ℕ}

theorem slot_malloc_self : (plan.malloc k).slot k = some ⟨0, none, none, none⟩ :=
  Function.update_self _ _ _

theorem slot_malloc_of_ne (h : m ≠ k) : (plan.malloc k).slot m = plan.slot m :=
  Function.update_of_ne h _ _

theorem slot_update_self : (plan.update k node).slot k = some node :=
  Function.update_self _ _ _

theorem slot_update_of_ne (h : m ≠ k) : (plan.update k node).slot m = plan.slot m :=
  Function.update_of_ne h _ _

/-- A slot keeps having a node. -/
theorem slot_update_ne_none (h : plan.slot m ≠ none) : (plan.update k node).slot m ≠ none := by
  by_cases hmk : m = k
  · subst hmk
    rw [slot_update_self]
    exact Option.some_ne_none _
  · rwa [slot_update_of_ne hmk]

theorem slot_malloc_ne_none (h : plan.slot m ≠ none) : (plan.malloc k).slot m ≠ none :=
  slot_update_ne_none h

end

end Plan

/-- The objects hold what the plan says. The nodes of the plan are new since the
objects `before`; no other node has changed. -/
structure Renders (before : HistogramTree) (plan : Plan) (s : TreeBuild) : Prop where
  length_shadow : s.1.shadowTree.length = hufHistogramLen
  absent : ∀ k, plan.slot k = none → address s.1.shadowTree (some k) = none
  present : ∀ k node, plan.slot k = some node →
    ∃ p, address s.1.shadowTree (some k) = some p ∧
      s.2.heap.nodes p = some (node.render s.1.shadowTree)
  fresh : ∀ k p, address s.1.shadowTree (some k) = some p →
    before.heap.next ≤ p ∧ p < s.2.heap.next
  injective : ∀ k m p, address s.1.shadowTree (some k) = some p →
    address s.1.shadowTree (some m) = some p → k = m
  closed : ∀ k node m, plan.slot k = some node → node.Refers m → plan.slot m ≠ none
  frame : ∀ p < before.heap.next, s.2.heap.nodes p = before.heap.nodes p
  next_le : before.heap.next ≤ s.2.heap.next
  allocations : s.2.heap.allocations = []
  length_leaves : s.2.tree.leaves.length = hufHistogramLen
  leaves : ∀ k < hufHistogramLen, s.2.tree.leaves[k]? =
    if plan.published k then some (address s.1.shadowTree (some k)) else before.tree.leaves[k]?
  published : ∀ k, plan.published k → plan.slot k ≠ none
  histogram : s.2.histogram = { before.histogram with frequencies := plan.rates }
  node : s.1.node = plan.node
  start : ∀ k < s.1.start, plan.rates.getD k 0 = 0

section

variable {before : HistogramTree} {plan : Plan} {s : TreeBuild} {k : ℕ} {node : SlotNode}

/-! ## Addresses -/

@[simp] theorem address_none (shadow : List (Option ℕ)) : address shadow none = none := rfl

theorem address_set_self {shadow : List (Option ℕ)} {k : ℕ} (hk : k < shadow.length) (p : ℕ) :
    address (shadow.set k (some p)) (some k) = some p := by
  rw [address, Option.bind_some, List.getElem?_set_self hk]
  rfl

theorem address_set_of_ne {k m : ℕ} (h : m ≠ k) (shadow : List (Option ℕ)) (p : ℕ) :
    address (shadow.set k (some p)) (some m) = address shadow (some m) := by
  simp [address, List.getElem?_set_ne h.symm]

theorem load_shadow {shadow : List (Option ℕ)} {k : ℕ} (hk : k < shadow.length) :
    load shadow k = .ok (address shadow (some k)) := by
  rw [load_of_getElem? (List.getElem?_eq_getElem hk), address, Option.bind_some,
    List.getElem?_eq_getElem hk, Option.join_some]

theorem SlotNode.render_set {shadow : List (Option ℕ)} (hk : ¬ node.Refers k) (p : ℕ) :
    node.render (shadow.set k (some p)) = node.render shadow := by
  have hset : ∀ slot : Option ℕ, slot ≠ some k →
      address (shadow.set k (some p)) slot = address shadow slot := by
    intro slot hslot
    cases slot with
    | none => rfl
    | some m => exact address_set_of_ne (fun h => hslot (congrArg some h)) shadow p
  rw [SlotNode.Refers, not_or, not_or] at hk
  rw [SlotNode.render, hset _ hk.1, hset _ hk.2.1, hset _ hk.2.2, SlotNode.render]

theorem Renders.slot_eq_none_iff (h : Renders before plan s) :
    plan.slot k = none ↔ address s.1.shadowTree (some k) = none := by
  refine ⟨h.absent k, fun haddress => ?_⟩
  cases hslot : plan.slot k with
  | none => rfl
  | some node =>
      obtain ⟨p, hp, -⟩ := h.present k node hslot
      rw [hp] at haddress
      cases haddress

/-! ## Operations -/

/-- The objects with a new node for a slot. -/
def TreeBuild.withNode (k : ℕ) (s : TreeBuild) : TreeBuild :=
  ({ s.1 with shadowTree := s.1.shadowTree.set k (some s.2.heap.next) },
    { s.2 with heap := s.2.heap.extend })

theorem mallocShadow_eq (halloc : s.2.heap.allocations = [])
    (hk : k < s.1.shadowTree.length) :
    TreeBuild.mallocShadow k s = .ok (.ok (), s.withNode k) := by
  have hmalloc : Routine.within TreeBuild.nodes Heap.mallocNode s =
      .ok (.ok s.2.heap.next, (s.1, { s.2 with heap := s.2.heap.extend })) :=
    Routine.within_of_ok rfl (Heap.mallocNode_eq halloc)
  rw [TreeBuild.mallocShadow, Routine.bind_of_ok hmalloc, TreeBuild.setShadow,
    Routine.get_bind_apply, store_of_lt hk, Routine.demand_ok_bind_apply, Routine.modify_apply]
  rfl

theorem Renders.address_withNode_self (h : Renders before plan s) (hk : k < hufHistogramLen) :
    address (s.withNode k).1.shadowTree (some k) = some s.2.heap.next :=
  address_set_self (h.length_shadow ▸ hk) _

theorem address_withNode_of_ne {m : ℕ} (hm : m ≠ k) :
    address (s.withNode k).1.shadowTree (some m) = address s.1.shadowTree (some m) :=
  address_set_of_ne hm _ _

/-- A slot that still has no node has no address. -/
theorem Renders.absent_withNode (h : Renders before plan s) {m : ℕ}
    (hm : (plan.malloc k).slot m = none) :
    address (s.withNode k).1.shadowTree (some m) = none := by
  by_cases hmk : m = k
  · subst hmk
    rw [Plan.slot_malloc_self] at hm
    cases hm
  · rw [Plan.slot_malloc_of_ne hmk] at hm
    exact (address_withNode_of_ne hmk).trans (h.absent m hm)

/-- The new node is blank, and no other node refers to its slot yet. -/
theorem Renders.present_withNode (h : Renders before plan s) (hk : k < hufHistogramLen)
    (hslot : plan.slot k = none) {m : ℕ} (hm : (plan.malloc k).slot m = some node) :
    ∃ p, address (s.withNode k).1.shadowTree (some m) = some p ∧
      (s.withNode k).2.heap.nodes p = some (node.render (s.withNode k).1.shadowTree) := by
  by_cases hmk : m = k
  · subst hmk
    rw [Plan.slot_malloc_self] at hm
    cases hm
    exact ⟨_, h.address_withNode_self hk, Heap.nodes_put _ _ _⟩
  · rw [Plan.slot_malloc_of_ne hmk] at hm
    obtain ⟨p, hp, hnode⟩ := h.present m node hm
    have hlt := (h.fresh m p hp).2
    refine ⟨p, (address_withNode_of_ne hmk).trans hp, ?_⟩
    show _ = some (node.render (s.1.shadowTree.set k (some s.2.heap.next)))
    rw [SlotNode.render_set fun href => h.closed m node k hm href hslot, ← hnode]
    exact Heap.nodes_put_of_ne _ _ (Nat.ne_of_lt hlt)

theorem Renders.fresh_withNode (h : Renders before plan s) (hk : k < hufHistogramLen) {m p : ℕ}
    (hp : address (s.withNode k).1.shadowTree (some m) = some p) :
    before.heap.next ≤ p ∧ p < (s.withNode k).2.heap.next := by
  by_cases hmk : m = k
  · subst hmk
    rw [h.address_withNode_self hk] at hp
    cases hp
    exact ⟨h.next_le, Nat.lt_succ_self _⟩
  · rw [address_withNode_of_ne hmk] at hp
    obtain ⟨hge, hlt⟩ := h.fresh m p hp
    exact ⟨hge, Nat.lt_succ_of_lt hlt⟩

/-- The new address is larger than those of all other slots. -/
theorem Renders.address_withNode_ne (h : Renders before plan s) {m : ℕ} (hm : m ≠ k) :
    address (s.withNode k).1.shadowTree (some m) ≠ some s.2.heap.next := by
  intro hp
  rw [address_withNode_of_ne hm] at hp
  exact absurd (h.fresh m _ hp).2 (Nat.lt_irrefl _)

theorem Renders.injective_withNode (h : Renders before plan s) (hk : k < hufHistogramLen)
    {m m' p : ℕ} (hm : address (s.withNode k).1.shadowTree (some m) = some p)
    (hm' : address (s.withNode k).1.shadowTree (some m') = some p) : m = m' := by
  by_contra hne
  by_cases hmk : m = k
  · subst hmk
    rw [h.address_withNode_self hk] at hm
    cases hm
    exact h.address_withNode_ne (Ne.symm hne) hm'
  · by_cases hmk' : m' = k
    · subst hmk'
      rw [h.address_withNode_self hk] at hm'
      cases hm'
      exact h.address_withNode_ne hmk hm
    · rw [address_withNode_of_ne hmk] at hm
      rw [address_withNode_of_ne hmk'] at hm'
      exact hne (h.injective m m' p hm hm')

theorem Renders.closed_malloc (h : Renders before plan s) {m m' : ℕ}
    (hm : (plan.malloc k).slot m = some node) (href : node.Refers m') :
    (plan.malloc k).slot m' ≠ none := by
  by_cases hmk : m = k
  · subst hmk
    rw [Plan.slot_malloc_self] at hm
    cases hm
    rcases href with href | href | href <;> cases href
  · rw [Plan.slot_malloc_of_ne hmk] at hm
    exact Plan.slot_malloc_ne_none (h.closed m node m' hm href)

/-- The leaves have no entry for a slot without a node. -/
theorem Renders.leaves_withNode (h : Renders before plan s) (hslot : plan.slot k = none) {m : ℕ}
    (hm : m < hufHistogramLen) : s.2.tree.leaves[m]? =
      if plan.published m then some (address (s.withNode k).1.shadowTree (some m))
      else before.tree.leaves[m]? := by
  rw [h.leaves m hm]
  by_cases hpublished : plan.published m
  · have hmk : m ≠ k := fun hmk => h.published m hpublished (hmk ▸ hslot)
    rw [address_withNode_of_ne hmk]
  · rw [if_neg hpublished, if_neg hpublished]

/-- The allocation of a node changes the plan in its slot. -/
theorem Renders.malloc (h : Renders before plan s) (hk : k < hufHistogramLen)
    (hslot : plan.slot k = none) :
    ∃ s', TreeBuild.mallocShadow k s = .ok (.ok (), s') ∧ s'.1.start = s.1.start ∧
      Renders before (plan.malloc k) s' := by
  refine ⟨s.withNode k, mallocShadow_eq h.allocations (h.length_shadow ▸ hk), rfl, ?_⟩
  exact {
    length_shadow := (List.length_set ..).trans h.length_shadow
    absent := fun _ => h.absent_withNode
    present := fun _ _ => h.present_withNode hk hslot
    fresh := fun _ _ => h.fresh_withNode hk
    injective := fun _ _ _ => h.injective_withNode hk
    closed := fun _ _ _ => h.closed_malloc
    frame := fun p hp => (Heap.nodes_put_of_ne _ _
      (Nat.ne_of_lt (Nat.lt_of_lt_of_le hp h.next_le))).trans (h.frame p hp)
    next_le := Nat.le_succ_of_le h.next_le
    allocations := h.allocations
    length_leaves := h.length_leaves
    leaves := fun _ => h.leaves_withNode hslot
    published := fun m hm => Plan.slot_malloc_ne_none (h.published m hm)
    histogram := h.histogram
    node := h.node
    start := h.start }

theorem updateShadow_eq {p : ℕ} {old : HufNode} (hk : k < s.1.shadowTree.length)
    (hp : address s.1.shadowTree (some k) = some p) (hold : s.2.heap.nodes p = some old)
    (change : HufNode → HufNode) :
    TreeBuild.updateShadow k change s =
      .ok (.ok (), (s.1, { s.2 with heap := s.2.heap.put p (some (change old)) })) := by
  rw [TreeBuild.updateShadow, Routine.get_bind_apply, load_shadow hk, hp,
    Routine.demand_ok_bind_apply]
  exact Routine.within_of_ok rfl (Heap.update_of_some hold change)

/-- A change of a node changes the plan in its slot. -/
theorem Renders.update (change : HufNode → HufNode) (node' : SlotNode)
    (h : Renders before plan s) (hk : k < hufHistogramLen) (hslot : plan.slot k = some node)
    (hchange : change (node.render s.1.shadowTree) = node'.render s.1.shadowTree)
    (hclosed : ∀ m, node'.Refers m → plan.slot m ≠ none) :
    ∃ s', TreeBuild.updateShadow k change s = .ok (.ok (), s') ∧
      s'.1.shadowTree = s.1.shadowTree ∧ s'.1.start = s.1.start ∧
      Renders before (plan.update k node') s' := by
  obtain ⟨p, hp, hnode⟩ := h.present k node hslot
  have hrun := updateShadow_eq (h.length_shadow ▸ hk) hp hnode change
  rw [hchange] at hrun
  refine ⟨_, hrun, rfl, rfl, ?_⟩
  constructor
  case length_shadow => exact h.length_shadow
  case absent =>
    intro m hm
    exact h.absent m (not_not.mp fun hne => Plan.slot_update_ne_none hne hm)
  case present =>
    intro m other hm
    by_cases hmk : m = k
    · subst hmk
      rw [Plan.slot_update_self] at hm
      cases hm
      exact ⟨p, hp, Heap.nodes_put _ _ _⟩
    · rw [Plan.slot_update_of_ne hmk] at hm
      obtain ⟨q, hq, hother⟩ := h.present m other hm
      refine ⟨q, hq, ?_⟩
      rw [← hother]
      exact Heap.nodes_put_of_ne _ _ fun hqp => hmk (h.injective m k p (hqp ▸ hq) hp)
  case fresh => exact h.fresh
  case injective => exact h.injective
  case closed =>
    intro m other m' hm href
    by_cases hmk : m = k
    · subst hmk
      rw [Plan.slot_update_self] at hm
      cases hm
      exact Plan.slot_update_ne_none (hclosed m' href)
    · rw [Plan.slot_update_of_ne hmk] at hm
      exact Plan.slot_update_ne_none (h.closed m other m' hm href)
  case frame =>
    intro q hq
    rw [← h.frame q hq]
    exact Heap.nodes_put_of_ne _ _ (Nat.ne_of_lt (Nat.lt_of_lt_of_le hq (h.fresh k p hp).1))
  case next_le => exact h.next_le
  case allocations => exact h.allocations
  case length_leaves => exact h.length_leaves
  case leaves => exact h.leaves
  case published => exact fun m hm => Plan.slot_update_ne_none (h.published m hm)
  case histogram => exact h.histogram
  case node => exact h.node
  case start => exact h.start

theorem setRate_eq {rate : ℕ} (hk : k < s.2.histogram.frequencies.length) :
    TreeBuild.setRate k rate s =
      .ok (.ok (), (s.1, { s.2 with histogram :=
        { s.2.histogram with frequencies := s.2.histogram.frequencies.set k rate } })) := by
  rw [TreeBuild.setRate, Routine.get_bind_apply, store_of_lt hk, Routine.demand_ok_bind_apply,
    Routine.modify_apply]

/-- An assignment to a rate changes the plan in the same place. -/
theorem Renders.setRate (rate : ℕ) (h : Renders before plan s) (hk : k < plan.rates.length)
    (hrate : rate = 0 ∨ s.1.start ≤ k) :
    ∃ s', TreeBuild.setRate k rate s = .ok (.ok (), s') ∧
      s'.1 = s.1 ∧ Renders before (plan.setRate k rate) s' := by
  have hrates : s.2.histogram.frequencies = plan.rates := by rw [h.histogram]
  refine ⟨_, setRate_eq (hrates ▸ hk), rfl, ?_⟩
  refine { h with histogram := ?_, start := fun m hm => ?_ }
  · show { s.2.histogram with frequencies := s.2.histogram.frequencies.set k rate } = _
    rw [h.histogram]
    rfl
  · show (plan.rates.set k rate).getD m 0 = 0
    by_cases hmk : m = k
    · subst hmk
      rw [List.getD_eq_getElem?_getD, List.getElem?_set_self hk, Option.getD_some]
      exact hrate.resolve_right (Nat.not_le.mpr hm)
    · rw [List.getD_eq_getElem?_getD, List.getElem?_set_ne (Ne.symm hmk),
        ← List.getD_eq_getElem?_getD]
      exact h.start m hm

/-- Publishing a leaf changes the plan, if the slot is one of a byte. -/
theorem Renders.publishLeaf (index : Option ℕ) (h : Renders before plan s)
    (hslot : ∀ k, index = some k → plan.slot k ≠ none) :
    ∃ s', LibHuffman.publishLeaf index s = .ok (.ok (), s') ∧ s'.1 = s.1 ∧
      Renders before (plan.publishLeaf index) s' := by
  cases index with
  | none => exact ⟨s, rfl, rfl, h⟩
  | some k =>
  rw [Plan.publishLeaf]
  by_cases hk : k < hufAsciiCount
  · have hlt : k < hufHistogramLen := Nat.lt_trans hk (by decide)
    refine ⟨(s.1, { s.2 with tree := { s.2.tree with
      leaves := s.2.tree.leaves.set k (address s.1.shadowTree (some k)) } }), ?_, rfl, ?_⟩
    · rw [LibHuffman.publishLeaf, if_pos hk, Routine.get_bind_apply,
        load_shadow (h.length_shadow ▸ hlt), Routine.demand_ok_bind_apply, Routine.get_bind_apply,
        store_of_lt (h.length_leaves ▸ hlt), Routine.demand_ok_bind_apply, Routine.modify_apply]
    · rw [if_pos hk]
      refine { h with length_leaves := ?_, leaves := fun m hm => ?_, published := fun m hm => ?_ }
      · exact (List.length_set ..).trans h.length_leaves
      · show (s.2.tree.leaves.set k _)[m]? =
          if Function.update plan.published k true m then _ else _
        by_cases hmk : m = k
        · subst hmk
          rw [List.getElem?_set_self (h.length_leaves ▸ hm), Function.update_self, if_pos rfl]
        · rw [List.getElem?_set_ne (Ne.symm hmk), Function.update_of_ne hmk, h.leaves m hm]
      · by_cases hmk : m = k
        · exact hmk ▸ hslot k rfl
        · apply h.published m
          rw [← hm]
          exact (Function.update_of_ne hmk _ _).symm
  · refine ⟨s, ?_, rfl, ?_⟩
    · rw [LibHuffman.publishLeaf, if_neg hk]
      rfl
    · rw [if_neg hk]
      exact h

/-- A child gets a node if it has none. -/
theorem Renders.allocateChild (index : Option ℕ) (h : Renders before plan s)
    (hindex : ∀ k, index = some k → k < hufHistogramLen) :
    ∃ s', LibHuffman.allocateChild index s = .ok (.ok (), s') ∧ s'.1.start = s.1.start ∧
      Renders before (plan.allocateChild index) s' := by
  cases index with
  | none => exact ⟨s, rfl, rfl, h⟩
  | some k =>
  have hk := hindex k rfl
  rw [Plan.allocateChild]
  have hload := load_shadow (h.length_shadow.symm ▸ hk : k < s.1.shadowTree.length)
  by_cases hslot : plan.slot k = none
  · obtain ⟨s', hrun, hstart, hrenders⟩ := h.malloc hk hslot
    refine ⟨s', ?_, hstart, ?_⟩
    · rw [LibHuffman.allocateChild, Routine.get_bind_apply, hload, Routine.demand_ok_bind_apply,
        if_pos (h.absent k hslot)]
      exact hrun
    · rw [if_pos hslot]
      exact hrenders
  · refine ⟨s, ?_, rfl, ?_⟩
    · rw [LibHuffman.allocateChild, Routine.get_bind_apply, hload, Routine.demand_ok_bind_apply,
        if_neg fun haddress => hslot (h.slot_eq_none_iff.mpr haddress)]
      rfl
    · rw [if_neg hslot]
      exact h

@[simp] theorem Plan.update_update (node node' : SlotNode) :
    (plan.update k node).update k node' = plan.update k node' := by
  rw [Plan.update, Plan.update, Plan.update, Function.update_idem]

theorem Plan.update_slot_self (node : SlotNode) : (plan.update k node).slot k = some node :=
  Function.update_self _ _ _

theorem Plan.update_slot_of_ne {m : ℕ} (h : m ≠ k) (node : SlotNode) :
    (plan.update k node).slot m = plan.slot m := Function.update_of_ne h _ _

theorem Plan.update_slot_ne_none {m : ℕ} (h : plan.slot m ≠ none) (node : SlotNode) :
    (plan.update k node).slot m ≠ none := by
  by_cases hm : m = k
  · rw [hm, Plan.update_slot_self]
    exact Option.some_ne_none _
  · rwa [Plan.update_slot_of_ne hm]

theorem Plan.get_of_ne_none (h : plan.slot k ≠ none) : plan.slot k = some (plan.get k) := by
  cases hslot : plan.slot k with
  | none => exact absurd hslot h
  | some node => rw [Plan.get, hslot, Option.getD_some]

/-- A child is linked to its parent in both directions. -/
theorem Renders.linkChild (n : ℕ) (index : Option ℕ) (attach : Option ℕ → HufNode → HufNode)
    (attach' : Option ℕ → SlotNode → SlotNode) (h : Renders before plan s)
    (hn : n < hufHistogramLen) (htop : plan.slot n ≠ none)
    (hindex : ∀ k, index = some k →
      k < hufHistogramLen ∧ k < plan.rates.length ∧ n ≠ k ∧ plan.slot k ≠ none)
    (hattach : ∀ shadow k (node : SlotNode),
      attach (address shadow (some k)) (node.render shadow) = (attach' (some k) node).render shadow)
    (hclosed : ∀ k (node : SlotNode) m,
      (attach' (some k) node).Refers m → m = k ∨ node.Refers m) :
    ∃ s', LibHuffman.linkChild n index attach s = .ok (.ok (), s') ∧
      s'.1.start = s.1.start ∧ Renders before (plan.linkChild n index attach') s' := by
  cases index with
  | none => exact ⟨s, rfl, rfl, h⟩
  | some k =>
  obtain ⟨hk, hrates, hne, hchild⟩ := hindex k rfl
  have hnode := Plan.get_of_ne_none hchild
  have hnodeTop := Plan.get_of_ne_none htop
  have hsome : ∀ m, (plan.get k).Refers m → plan.slot m ≠ none := fun m => h.closed k _ m hnode
  obtain ⟨s₁, hrun₁, hshadow₁, hstart₁, h₁⟩ := h.update
    (fun node => { node with parent := address s.1.shadowTree (some n) })
    { plan.get k with parent := some n } hk hnode rfl (by
      rintro m (href | href | href)
      · cases href
        exact htop
      · exact hsome m (Or.inr (Or.inl href))
      · exact hsome m (Or.inr (Or.inr href)))
  obtain ⟨s₂, hrun₂, hshadow₂, hstart₂, h₂⟩ := h₁.update
    (fun node => { node with index := Int16.ofNat k })
    { plan.get k with index := Int16.ofNat k, parent := some n } hk
    (Plan.update_slot_self _) rfl
    fun m href => h₁.closed k { plan.get k with parent := some n } m (Plan.update_slot_self _) href
  rw [Plan.update_update] at h₂
  obtain ⟨s₃, hrun₃, hshadow₃, hstart₃, h₃⟩ := h₂.update
    (attach (address s₂.1.shadowTree (some k)))
    (attach' (some k) (plan.get n)) hn
    ((Plan.update_slot_of_ne hne _).trans hnodeTop) (hattach _ _ _) (by
      intro m href
      refine Plan.update_slot_ne_none ?_ _
      rcases hclosed k _ m href with rfl | href
      · exact hchild
      · exact h.closed n _ m hnodeTop href)
  obtain ⟨s₄, hrun₄, hlocals₄, h₄⟩ := h₃.setRate 0 hrates (Or.inl rfl)
  refine ⟨s₄, ?_, ?_, h₄⟩
  · rw [LibHuffman.linkChild, Routine.get_bind_apply, load_shadow (h.length_shadow ▸ hn),
      Routine.demand_ok_bind_apply, Routine.bind_of_ok hrun₁, Routine.bind_of_ok hrun₂,
      Routine.get_bind_apply, load_shadow (h₂.length_shadow ▸ hk), Routine.demand_ok_bind_apply,
      Routine.bind_of_ok hrun₃]
    exact hrun₄
  · rw [hlocals₄, hstart₃, hstart₂, hstart₁]

end

end LibHuffman
