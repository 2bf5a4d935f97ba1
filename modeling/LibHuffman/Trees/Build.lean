/-
# Construction from a histogram

`huf_tree_from_histogram` joins slots as the forest does: an iteration of its loop
is a step of the forest, and the nodes it leaves in the heap are those that the
forest plans.
-/

import LibHuffman.Trees.Forest
import LibHuffman.Trees.Slots

namespace LibHuffman

open Foundation

/-! ## One step of the plan -/

namespace Plan

/-- `left` of a node becomes a slot. -/
def attachLeft (slot : Option ℕ) (node : SlotNode) : SlotNode := { node with left := slot }

/-- `right` of a node becomes a slot. -/
def attachRight (slot : Option ℕ) (node : SlotNode) : SlotNode := { node with right := slot }

/-- Allocate the nodes of a step and publish its leaves. -/
def prepare (n i : ℕ) (second : Option ℕ) (plan : Plan) : Plan :=
  let allocated := ((plan.allocateChild (some i)).allocateChild second).malloc n
  (allocated.publishLeaf (some i)).publishLeaf second

/-- Link the nodes of a step. -/
def connect (n i : ℕ) (second : Option ℕ) (plan : Plan) : Plan :=
  let cleared := plan.update n ⟨0, none, none, none⟩
  let linked := (cleared.linkChild n (some i) attachLeft).linkChild n second attachRight
  linked.update n { linked.get n with index := Int16.ofNat n }

section

variable {plan : Plan} {n i k : ℕ} {second : Option ℕ}

theorem slot_allocateChild (index : Option ℕ) :
    (plan.allocateChild index).slot k =
      if some k = index then some (plan.get k) else plan.slot k := by
  cases index with
  | none => rfl
  | some m =>
      rw [allocateChild]
      by_cases hkm : k = m
      · subst hkm
        rw [if_pos rfl]
        split
        · rename_i hslot
          rw [slot_malloc_self, get, hslot, Option.getD_none]
        · rename_i hslot
          exact get_of_ne_none hslot
      · rw [if_neg fun h => hkm (Option.some.inj h)]
        split
        · exact slot_malloc_of_ne hkm
        · rfl

@[simp] theorem slot_publishLeaf (index : Option ℕ) :
    (plan.publishLeaf index).slot = plan.slot := by
  cases index with
  | none => rfl
  | some m =>
      rw [publishLeaf]
      split <;> rfl

theorem slot_linkChild_of_ne {attach : Option ℕ → SlotNode → SlotNode} (hk : k ≠ n)
    (index : Option ℕ) :
    (plan.linkChild n index attach).slot k =
      if some k = index then
        some { plan.get k with index := Int16.ofNat k, parent := some n }
      else plan.slot k := by
  cases index with
  | none => rfl
  | some m =>
      show ((plan.update m _).update n _).slot k = _
      rw [update_slot_of_ne hk]
      by_cases hkm : k = m
      · subst hkm
        rw [update_slot_self, if_pos rfl]
      · rw [update_slot_of_ne hkm, if_neg fun h => hkm (Option.some.inj h)]

theorem slot_linkChild_self {attach : Option ℕ → SlotNode → SlotNode} (m : ℕ) :
    (plan.linkChild n (some m) attach).slot n = some (attach (some m) (plan.get n)) :=
  update_slot_self _

theorem get_of_slot {node : SlotNode} (h : plan.slot k = some node) : plan.get k = node := by
  rw [get, h, Option.getD_some]

theorem slot_prepare (hne : second ≠ some i) :
    (plan.prepare n i second).slot k =
      if k = n then some ⟨0, none, none, none⟩
      else if k = i ∨ some k = second then some (plan.get k) else plan.slot k := by
  rw [prepare, slot_publishLeaf, slot_publishLeaf]
  by_cases hkn : k = n
  · rw [hkn, slot_malloc_self, if_pos rfl]
  · rw [slot_malloc_of_ne hkn, if_neg hkn, slot_allocateChild, slot_allocateChild, get,
      slot_allocateChild]
    by_cases hki : k = i
    · subst hki
      rw [if_neg (Ne.symm hne), if_pos rfl, if_pos (Or.inl rfl)]
    · have hki' : ¬ some k = some i := fun h => hki (Option.some.inj h)
      simp only [hki, hki', false_or, if_false, get]

theorem slot_connect_self : (plan.connect n i second).slot n =
    some ⟨Int16.ofNat n, none, some i, second⟩ := by
  rw [connect, update_slot_self]
  have hfirst : (((plan.update n ⟨0, none, none, none⟩).linkChild n (some i) attachLeft).slot n) =
      some ⟨0, none, some i, none⟩ := by
    rw [slot_linkChild_self, get_of_slot (update_slot_self _), attachLeft]
  cases second with
  | none => rw [linkChild, get_of_slot hfirst]
  | some j => rw [get_of_slot (slot_linkChild_self j), get_of_slot hfirst, attachRight]

theorem slot_connect_of_ne (hk : k ≠ n) (hne : second ≠ some i) :
    (plan.connect n i second).slot k =
      if k = i ∨ some k = second then
        some { plan.get k with index := Int16.ofNat k, parent := some n }
      else plan.slot k := by
  have hcleared : (plan.update n ⟨0, none, none, none⟩).slot k = plan.slot k :=
    update_slot_of_ne hk _
  have hget : (plan.update n ⟨0, none, none, none⟩).get k = plan.get k := by
    rw [get, hcleared, get]
  rw [connect, update_slot_of_ne hk, slot_linkChild_of_ne hk, slot_linkChild_of_ne hk, hget,
    hcleared]
  by_cases hki : k = i
  · subst hki
    rw [if_neg (Ne.symm hne), if_pos rfl, if_pos (Or.inl rfl)]
  · have hki' : ¬ some k = some i := fun h => hki (Option.some.inj h)
    have hget' : ((plan.update n ⟨0, none, none, none⟩).linkChild n (some i) attachLeft).get k =
        plan.get k := by
      rw [get, slot_linkChild_of_ne hk, if_neg hki', hcleared, get]
    simp only [hki, hki', false_or, if_false, hget']

theorem published_publishLeaf (index : Option ℕ) :
    (plan.publishLeaf index).published k =
      (plan.published k || decide (k < hufAsciiCount ∧ some k = index)) := by
  cases index with
  | none => simp [publishLeaf]
  | some m =>
      rw [publishLeaf]
      by_cases hkm : k = m
      · subst hkm
        split <;> simp [publish, *]
      · split <;> simp [publish, hkm]

theorem published_allocateChild (index : Option ℕ) :
    (plan.allocateChild index).published = plan.published := by
  cases index with
  | none => rfl
  | some m =>
      rw [allocateChild]
      split <;> rfl

theorem published_prepare :
    (plan.prepare n i second).published k =
      (plan.published k || decide (k < hufAsciiCount ∧ (k = i ∨ some k = second))) := by
  rw [prepare, published_publishLeaf, published_publishLeaf, malloc, published_allocateChild,
    published_allocateChild, Bool.or_assoc, ← Bool.decide_or]
  simp only [Option.some.injEq, and_or_left]

theorem rates_prepare : (plan.prepare n i second).rates = plan.rates := by
  have hallocate : ∀ (plan : Plan) index, (plan.allocateChild index).rates = plan.rates := by
    intro plan index
    cases index with
    | none => rfl
    | some m =>
        rw [allocateChild]
        split <;> rfl
  have hpublish : ∀ (plan : Plan) index, (plan.publishLeaf index).rates = plan.rates := by
    intro plan index
    cases index with
    | none => rfl
    | some m =>
        rw [publishLeaf]
        split <;> rfl
  rw [prepare, hpublish, hpublish, malloc, hallocate, hallocate]

theorem published_connect : (plan.connect n i second).published = plan.published := by
  cases second <;> rfl

theorem rates_connect :
    (plan.connect n i second).rates = Forest.taken plan.rates i second := by
  cases second <;> rfl

end

end Plan

/-! ## Runs of one step -/

section

variable {before : HistogramTree} {plan : Plan} {s : TreeBuild} {n i : ℕ} {second : Option ℕ}

/-- The allocations of a step and the publication of its leaves. -/
theorem Renders.prepare (h : Renders before plan s) (hn : n < hufHistogramLen)
    (hi : i < n) (hsecond : ∀ j, second = some j → j < n) (hne : second ≠ some i)
    (hslot : plan.slot n = none) :
    ∃ s', s'.1.start = s.1.start ∧ Renders before (plan.prepare n i second) s' ∧
      ∀ {β : Type} (rest : CRoutine TreeBuild β),
        (do LibHuffman.allocateChild (some i)
            LibHuffman.allocateChild second
            TreeBuild.mallocShadow n
            LibHuffman.publishLeaf (some i)
            LibHuffman.publishLeaf second
            rest) s = rest s' := by
  obtain ⟨s₁, hrun₁, hstart₁, h₁⟩ := h.allocateChild (some i) fun k hk => by
    cases hk
    omega
  obtain ⟨s₂, hrun₂, hstart₂, h₂⟩ := h₁.allocateChild second fun k hk => by
    have := hsecond k hk
    omega
  have hslot₂ : ((plan.allocateChild (some i)).allocateChild second).slot n = none := by
    rw [Plan.slot_allocateChild, Plan.slot_allocateChild, if_neg, if_neg, hslot]
    · intro hni
      cases hni
      omega
    · intro hns
      exact absurd (hsecond n hns.symm) (Nat.lt_irrefl n)
  obtain ⟨s₃, hrun₃, hstart₃, h₃⟩ := h₂.malloc hn hslot₂
  have hprepared : ∀ k, k = i ∨ some k = second →
      (((plan.allocateChild (some i)).allocateChild second).malloc n).slot k ≠ none := by
    intro k hk
    have hslot : (plan.prepare n i second).slot k = _ := Plan.slot_prepare hne
    rw [Plan.prepare, Plan.slot_publishLeaf, Plan.slot_publishLeaf] at hslot
    rw [hslot]
    split <;> exact Option.some_ne_none _
  obtain ⟨s₄, hrun₄, hstart₄, h₄⟩ := h₃.publishLeaf (some i) fun k hk =>
    hprepared k (Or.inl (Option.some.inj hk).symm)
  obtain ⟨s₅, hrun₅, hstart₅, h₅⟩ := h₄.publishLeaf second fun k hk => by
    rw [Plan.slot_publishLeaf]
    exact hprepared k (Or.inr hk.symm)
  refine ⟨s₅, by rw [hstart₅, hstart₄, hstart₃, hstart₂, hstart₁], h₅, fun rest => ?_⟩
  rw [Routine.bind_of_ok hrun₁, Routine.bind_of_ok hrun₂, Routine.bind_of_ok hrun₃,
    Routine.bind_of_ok hrun₄, Routine.bind_of_ok hrun₅]

/-- The assignments that link the nodes of a step. -/
theorem Renders.connect (h : Renders before plan s) (hn : n < hufHistogramLen)
    (hlen : plan.rates.length = hufHistogramLen)
    (hi : i < n) (hsecond : ∀ j, second = some j → j < n)
    (hslot : plan.slot n = some ⟨0, none, none, none⟩) (hslotFirst : plan.slot i ≠ none)
    (hslotSecond : ∀ j, second = some j → plan.slot j ≠ none) :
    ∃ s', s'.1.start = s.1.start ∧ Renders before (plan.connect n i second) s' ∧
      ∀ {β : Type} (rest : CRoutine TreeBuild β),
        (do TreeBuild.updateShadow n fun self => { self with left := none }
            TreeBuild.updateShadow n fun self => { self with right := none }
            LibHuffman.linkChild n (some i) fun pointer self => { self with left := pointer }
            LibHuffman.linkChild n second fun pointer self => { self with right := pointer }
            TreeBuild.updateShadow n fun self => { self with index := Int16.ofNat n }
            rest) s = rest s' := by
  have hblank : ∀ m, ¬ SlotNode.Refers ⟨0, none, none, none⟩ m := by
    rintro m (href | href | href) <;> cases href
  obtain ⟨s₁, hrun₁, -, hstart₁, h₁⟩ := h.update
    (fun self => { self with left := none }) ⟨0, none, none, none⟩ hn hslot rfl
    fun m href => absurd href (hblank m)
  obtain ⟨s₂, hrun₂, -, hstart₂, h₂⟩ := h₁.update
    (fun self => { self with right := none }) ⟨0, none, none, none⟩ hn (Plan.update_slot_self _) rfl
    fun m href => absurd href (hblank m)
  rw [Plan.update_update] at h₂
  have hother : ∀ m, plan.slot m ≠ none →
      (plan.update n ⟨0, none, none, none⟩).slot m ≠ none :=
    fun m hm => Plan.update_slot_ne_none hm _
  obtain ⟨s₃, hrun₃, hstart₃, h₃⟩ := h₂.linkChild n (some i)
    (fun pointer self => { self with left := pointer }) Plan.attachLeft hn
    (hother n (by rw [hslot]; exact Option.some_ne_none _))
    (by
      rintro k hk
      cases hk
      exact ⟨by omega, by simp only [Plan.update, hlen]; omega, by omega, hother i hslotFirst⟩)
    (fun _ _ _ => rfl)
    (by
      rintro k node m (href | href | href)
      · exact Or.inr (Or.inl href)
      · exact Or.inl (Option.some.inj href).symm
      · exact Or.inr (Or.inr (Or.inr href)))
  have hlinked : ∀ m, plan.slot m ≠ none →
      ((plan.update n ⟨0, none, none, none⟩).linkChild n (some i) Plan.attachLeft).slot m ≠ none :=
    fun m hm => Plan.update_slot_ne_none (Plan.update_slot_ne_none (hother m hm) _) _
  obtain ⟨s₄, hrun₄, hstart₄, h₄⟩ := h₃.linkChild n second
    (fun pointer self => { self with right := pointer }) Plan.attachRight hn
    (hlinked n (by rw [hslot]; exact Option.some_ne_none _))
    (by
      intro k hk
      have hkn := hsecond k hk
      refine ⟨by omega, ?_, by omega, hlinked k (hslotSecond k hk)⟩
      show k < (plan.rates.set i 0).length
      rw [List.length_set, hlen]
      omega)
    (fun _ _ _ => rfl)
    (by
      rintro k node m (href | href | href)
      · exact Or.inr (Or.inl href)
      · exact Or.inr (Or.inr (Or.inl href))
      · exact Or.inl (Option.some.inj href).symm)
  have htop : (((plan.update n ⟨0, none, none, none⟩).linkChild n (some i)
      Plan.attachLeft).linkChild n second Plan.attachRight).slot n ≠ none := by
    cases second with
    | none => exact hlinked n (by rw [hslot]; exact Option.some_ne_none _)
    | some j =>
        rw [Plan.slot_linkChild_self]
        exact Option.some_ne_none _
  generalize hplan : ((plan.update n ⟨0, none, none, none⟩).linkChild n (some i)
    Plan.attachLeft).linkChild n second Plan.attachRight = linked at h₄ htop
  obtain ⟨s₅, hrun₅, -, hstart₅, h₅⟩ := h₄.update
    (fun self => { self with index := Int16.ofNat n })
    { linked.get n with index := Int16.ofNat n } hn (Plan.get_of_ne_none htop) rfl
    fun m href => h₄.closed n _ m (Plan.get_of_ne_none htop) href
  subst hplan
  refine ⟨s₅, by rw [hstart₅, hstart₄, hstart₃, hstart₂, hstart₁], h₅, fun rest => ?_⟩
  rw [Routine.bind_of_ok hrun₁, Routine.bind_of_ok hrun₂, Routine.bind_of_ok hrun₃,
    Routine.bind_of_ok hrun₄, Routine.bind_of_ok hrun₅]

end

/-! ## The plan of a forest -/

/-- The slot of the root of a tree. -/
def rootSlot : BinaryTree ℕ → Option ℕ
  | .nil => none
  | .node k _ _ => some k

/-- The node of a slot of a forest. -/
def Forest.slotNode (forest : Forest) (k : ℕ) : SlotNode where
  index := Int16.ofNat k
  parent := forest.parent k
  left := rootSlot (forest.trees k).left
  right := rootSlot (forest.trees k).right

/-- The nodes that are allocated for a forest: those that join others, and those
that have been joined. -/
def Forest.plan (forest : Forest) : Plan where
  slot k :=
    if (hufAsciiCount ≤ k ∧ k < forest.node) ∨ forest.parent k ≠ none then
      some (forest.slotNode k)
    else none
  published k := decide (k < hufAsciiCount ∧ forest.parent k ≠ none)
  rates := forest.rates
  node := forest.node

namespace Forest

section

variable {forest : Forest} {bytes : Finset ℕ} {total i k : ℕ} {second : Option ℕ}

theorem slot_plan (forest : Forest) (k : ℕ) : forest.plan.slot k =
    if (hufAsciiCount ≤ k ∧ k < forest.node) ∨ forest.parent k ≠ none then
      some (forest.slotNode k)
    else none := rfl

theorem published_plan (forest : Forest) (k : ℕ) :
    forest.plan.published k = decide (k < hufAsciiCount ∧ forest.parent k ≠ none) := rfl

theorem parent_join (forest : Forest) (i : ℕ) (second : Option ℕ) (k : ℕ) :
    (forest.join i second).parent k =
      if k = i ∨ some k = second then some forest.node else forest.parent k := rfl

theorem Sound.parent_of_live (h : Sound bytes total forest) (hk : k ∈ forest.live) :
    forest.parent k = none := by
  by_contra hparent
  exact (mem_live.mp hk).2 ((h.parent_iff k).mp hparent).2

theorem Sound.parent_of_le (h : Sound bytes total forest) (hk : forest.node ≤ k) :
    forest.parent k = none := by
  by_contra hparent
  have hle := h.le_node
  rcases ((h.parent_iff k).mp hparent).1 with hbyte | hlt
  · have := h.bytes_lt k hbyte
    omega
  · omega

theorem Sound.rootSlot_trees (h : Sound bytes total forest) (hk : k < forest.node) :
    rootSlot (forest.trees k) = some k := by
  by_cases hbyte : k < hufAsciiCount
  · rw [h.leaf k hbyte]
    rfl
  · obtain ⟨i, j, hjoin⟩ := h.inner k (Nat.not_lt.mp hbyte) hk
    rw [hjoin.tree]
    rfl

/-- The node of a live slot has its children and, so far, no parent; the node of a
byte has not even been allocated. -/
theorem Sound.get_of_live (h : Sound bytes total forest) (hk : k ∈ forest.live)
    (parent : Option ℕ) :
    { forest.plan.get k with index := Int16.ofNat k, parent := parent } =
      ({ forest.slotNode k with parent := parent } : SlotNode) := by
  have hparent := h.parent_of_live hk
  by_cases hbyte : k < hufAsciiCount
  · have hslot : forest.plan.slot k = none := by
      refine (slot_plan forest k).trans (if_neg ?_)
      rw [not_or]
      exact ⟨fun hle => by omega, not_not.mpr hparent⟩
    rw [Plan.get, hslot, Option.getD_none, slotNode, h.leaf k hbyte]
    rfl
  · have hslot : forest.plan.slot k = some (forest.slotNode k) :=
      if_pos (Or.inl ⟨Nat.not_lt.mp hbyte, (mem_live.mp hk).1⟩)
    rw [Plan.get, hslot, Option.getD_some]
    rfl

theorem Chosen.lt (h : forest.Chosen i second) : i < forest.node :=
  (Forest.mem_live.mp h.mem_live).1

theorem Chosen.second_lt (h : forest.Chosen i second) :
    ∀ j, second = some j → j < forest.node := fun j hj =>
  (Forest.mem_live.mp (h.second_mem_live j hj).1).1

theorem Chosen.ne (h : forest.Chosen i second) : second ≠ some i := fun hsame =>
  (h.second_mem_live i hsame).2 rfl

/-- The operations of a step turn the plan of the forest into the plan of the next
forest. -/
theorem Sound.plan_join (h : Sound bytes total forest) (hchosen : forest.Chosen i second) :
    { (((forest.plan.prepare forest.node i second).connect forest.node i second).setRate
        forest.node (forest.rate i + (forest.second second).1)) with node := forest.node + 1 } =
      (forest.join i second).plan := by
  have hin := hchosen.lt
  have hle := h.le_node
  apply Plan.ext
  case slot =>
    funext k
    show ((forest.plan.prepare _ i second).connect _ i second).slot k =
      if (hufAsciiCount ≤ k ∧ k < forest.node + 1) ∨ (forest.join i second).parent k ≠ none then
        some ((forest.join i second).slotNode k) else none
    by_cases hkn : k = forest.node
    · subst hkn
      rw [Plan.slot_connect_self, if_pos (Or.inl ⟨hle, Nat.lt_succ_self _⟩), slotNode, parent_join,
        if_neg, h.parent_of_le (Nat.le_refl _), trees_join_node]
      · show some _ = some (SlotNode.mk _ none (rootSlot (forest.trees i))
          (rootSlot (forest.second second).2))
        rw [h.rootSlot_trees hin]
        cases second with
        | none => rfl
        | some j =>
            show _ = some (SlotNode.mk _ none (some i) (rootSlot (forest.trees j)))
            rw [h.rootSlot_trees (hchosen.second_lt j rfl)]
      · rintro (hni | hns)
        · omega
        · exact absurd (hchosen.second_lt _ hns.symm) (Nat.lt_irrefl _)
    · have hprepare : (forest.plan.prepare forest.node i second).slot k = _ :=
        Plan.slot_prepare hchosen.ne
      rw [if_neg hkn] at hprepare
      rw [Plan.slot_connect_of_ne hkn hchosen.ne]
      by_cases hk : k = i ∨ some k = second
      · have hlive : k ∈ forest.live := by
          rcases hk with rfl | hk
          · exact hchosen.mem_live
          · exact (hchosen.second_mem_live k hk.symm).1
        rw [if_pos hk] at hprepare
        rw [if_pos hk, Plan.get_of_slot hprepare, h.get_of_live hlive, if_pos, slotNode, slotNode,
          parent_join, if_pos hk, trees_join hkn]
        rw [parent_join, if_pos hk]
        exact Or.inr (Option.some_ne_none _)
      · rw [if_neg hk] at hprepare
        have hiff : k < forest.node + 1 ↔ k < forest.node := by omega
        have hnode : (forest.join i second).slotNode k = forest.slotNode k := by
          rw [slotNode, parent_join, if_neg hk, trees_join hkn, slotNode]
        rw [if_neg hk, hprepare, slot_plan, hnode, parent_join, if_neg hk]
        simp only [hiff]
  case published =>
    funext k
    show ((forest.plan.prepare _ i second).connect _ i second).published k =
      decide (k < hufAsciiCount ∧ (forest.join i second).parent k ≠ none)
    rw [Plan.published_connect, Plan.published_prepare, published_plan, parent_join,
      ← Bool.decide_or]
    by_cases hk : k = i ∨ some k = second
    · simp only [hk, if_true, ne_eq, reduceCtorEq, not_false_eq_true, and_true]
      exact decide_eq_decide.mpr (or_iff_right_of_imp And.left)
    · simp only [hk, and_false, or_false, if_false]
  case rates =>
    show ((forest.plan.prepare _ i second).connect _ i second).rates.set _ _ = _
    rw [Plan.rates_connect, Plan.rates_prepare]
    rfl
  case node => rfl

end

end Forest

/-! ## The loop -/

/-- Two rates of a forest have a sum that fits an unsigned 64-bit number; the signed
sum overflows only from half of that on. -/
theorem addRates_cases {a b total : ℕ} (hsum : a + b ≤ total) (htotal : total < 2 ^ 64) :
    (∃ rate, addRates (toInt64 a) (toInt64 b) = .ok rate ∧ ofInt64 rate = a + b) ∨
      addRates (toInt64 a) (toInt64 b) = .error .signedOverflow ∧ 2 ^ 63 ≤ total := by
  by_cases hfits : -2 ^ 63 ≤ toInt64 a + toInt64 b ∧ toInt64 a + toInt64 b < 2 ^ 63
  · refine Or.inl ⟨_, if_pos hfits, ?_⟩
    rw [ofInt64, toInt64, toInt64]
    split <;> split <;> omega
  · refine Or.inr ⟨if_neg hfits, ?_⟩
    rw [toInt64, toInt64] at hfits
    split at hfits <;> split at hfits <;> omega

/-- Some step of the construction adds two rates whose signed sum does not fit. -/
inductive Forest.Overflows : Forest → Prop
  | here {forest : Forest} {i : ℕ} {second : Option ℕ} (hnext : forest.next = some (i, second))
      (hadd : addRates (toInt64 (forest.rate i)) (toInt64 (forest.second second).1) =
        .error .signedOverflow) : Overflows forest
  | later {forest : Forest} {i j : ℕ} (hnext : forest.next = some (i, some j))
      (hlater : Overflows (forest.join i (some j))) : Overflows forest

theorem Forest.Chosen.sum_le {forest : Forest} {i : ℕ} {second : Option ℕ}
    (h : forest.Chosen i second) :
    forest.rate i + (forest.second second).1 ≤ forest.pool.weight := by
  cases h with
  | single hlive => exact Forest.rate_le (hlive ▸ Finset.mem_singleton_self i)
  | @pair j hi hj hne =>
      rw [Forest.pool_pair hi hj hne, Pool.weight_cons, Pool.weight_cons, ← Nat.add_assoc]
      exact Nat.le_add_right _ _

section

variable {before : HistogramTree} {forest : Forest} {bytes : Finset ℕ} {total : ℕ}

/-- The root of the tree becomes the node of a slot. -/
theorem Renders.setRoot {plan : Plan} {s : TreeBuild} {k : ℕ} (h : Renders before plan s)
    (hk : k < hufHistogramLen) :
    ∃ s', TreeBuild.setRoot k s = .ok (.ok (), s') ∧ s'.1 = s.1 ∧
      s'.2.tree.root = address s.1.shadowTree (some k) ∧ Renders before plan s' := by
  let s' : TreeBuild := (s.1, { s.2 with
    tree := { s.2.tree with root := address s.1.shadowTree (some k) } })
  refine ⟨s', ?_, rfl, rfl, ⟨h.length_shadow, h.absent, h.present, h.fresh, h.injective, h.closed,
    h.frame, h.next_le, h.allocations, h.length_leaves, h.leaves, h.published, h.histogram, h.node,
    h.start⟩⟩
  rw [TreeBuild.setRoot, Routine.get_bind_apply, load_shadow (h.length_shadow ▸ hk),
    Routine.demand_ok_bind_apply, Routine.modify_apply]

/-- An iteration of the loop is a step of the forest, unless the sum of the two
rates overflows. -/
theorem mergeMinimum_eq {s : TreeBuild} (hrenders : Renders before forest.plan s)
    (hsound : forest.Sound bytes total) (htotal : total < 2 ^ 64)
    (hnode : forest.node < hufHistogramLen) (hlive : forest.live.Nonempty) :
    ∃ i second, forest.Chosen i second ∧ forest.next = some (i, second) ∧
      (mergeMinimum s = .error .signedOverflow ∧
          addRates (toInt64 (forest.rate i)) (toInt64 (forest.second second).1) =
            .error .signedOverflow ∧ 2 ^ 63 ≤ total ∨
        (∃ rate, addRates (toInt64 (forest.rate i)) (toInt64 (forest.second second).1) =
          .ok rate) ∧
        ∃ s', mergeMinimum s =
            .ok (.ok (if second = none then .leave () else .next ()), s') ∧
          Renders before (forest.join i second).plan s' ∧
          (second = none → s'.2.tree.root = address s'.1.shadowTree (some forest.node))) := by
  obtain ⟨i, second, hchosen, hmin⟩ := hsound.minimum_eq htotal hlive
  refine ⟨i, second, hchosen, Forest.next_eq hmin, ?_⟩
  have hrates : s.2.histogram.frequencies = forest.rates := by rw [hrenders.histogram]; rfl
  have hlen := hsound.length_rates
  have hlt := hchosen.lt
  -- the first live slot, and the rates from there on
  have hrate : forest.rates.getD i 0 ≠ 0 := (Forest.mem_live.mp hchosen.mem_live).2
  have hfrom : s.1.start ≤ i := by
    by_contra hlate
    exact hrate (hrenders.start i (Nat.not_le.mp hlate))
  have hfuel : i - s.1.start < forest.rates.length + 1 := by omega
  obtain ⟨start, hskip, hstart, hzero⟩ := skipZeroRates_eq hrate hfrom hfuel hrenders.start
  have hscan := findMinimum_eq hzero (show start ≤ forest.node by omega) (by omega)
  rw [hmin] at hscan
  let s₀ : TreeBuild := ({ s.1 with start }, s.2)
  have h₀ : Renders before forest.plan s₀ := { hrenders with start := hzero }
  have hblank : forest.plan.slot forest.node = none := by
    rw [Forest.slot_plan, if_neg]
    rintro (hin | hparent)
    · exact absurd hin.2 (Nat.lt_irrefl _)
    · exact hparent (hsound.parent_of_le (Nat.le_refl _))
  -- the nodes of the step
  obtain ⟨s₁, hstart₁, h₁, hrun₁⟩ := h₀.prepare hnode hlt hchosen.second_lt hchosen.ne hblank
  have hprepared : ∀ k, k = i ∨ some k = second →
      (forest.plan.prepare forest.node i second).slot k ≠ none := by
    intro k hk
    rw [Plan.slot_prepare hchosen.ne]
    split <;> exact Option.some_ne_none _
  obtain ⟨s₂, hstart₂, h₂, hrun₂⟩ := h₁.connect hnode
    (by rw [Plan.rates_prepare]; exact hlen) hlt hchosen.second_lt
    (by rw [Plan.slot_prepare hchosen.ne, if_pos rfl])
    (hprepared i (Or.inl rfl)) fun j hj => hprepared j (Or.inr hj.symm)
  have hrun : mergeMinimum s = ((do
      let rate ← Routine.demand (addRates (toInt64 (forest.rate i))
        (toInt64 (forest.second second).1))
      TreeBuild.setRate forest.node (ofInt64 rate)
      Routine.modify fun s => ({ s.1 with node := forest.node + 1 }, s.2)
      if second = none then
        TreeBuild.setRoot forest.node
        return .leave ()
      return .next ()) : CRoutine TreeBuild (LoopStep Unit)) s₂ := by
    rw [mergeMinimum, Routine.get_bind_apply, Routine.get_bind_apply, hrates, hskip,
      Routine.demand_ok_bind_apply, Routine.modify_bind_apply, Routine.get_bind_apply,
      show s₀.1.node = forest.node from h₀.node]
    show (Routine.demand (findMinimum forest.rates start forest.node) >>= _) s₀ = _
    rw [hscan, Routine.demand_ok_bind_apply, if_neg (by simp)]
    dsimp only
    rw [hrun₁, hrun₂]
    simp only [ne_eq, reduceCtorEq, not_false_eq_true, true_and, Nat.add_sub_cancel]
  rw [hrun]
  rcases addRates_cases (hsound.weight ▸ hchosen.sum_le) htotal with
    ⟨rate, hadd, hrate⟩ | ⟨hadd, hlarge⟩
  · obtain ⟨s₃, hrun₃, hlocals₃, h₃⟩ := h₂.setRate (ofInt64 rate) (k := forest.node)
      (by rw [Plan.rates_connect, Plan.rates_prepare, Forest.length_taken]; exact hlen ▸ hnode)
      (Or.inr (by rw [hstart₂, hstart₁]; exact Nat.le_trans hstart (Nat.le_of_lt hlt)))
    rw [hrate] at h₃
    let s₄ : TreeBuild := ({ s₃.1 with node := forest.node + 1 }, s₃.2)
    have h₄ : Renders before (forest.join i second).plan s₄ := by
      rw [← hsound.plan_join hchosen]
      exact { h₃ with node := rfl }
    refine Or.inr ⟨⟨rate, hadd⟩, ?_⟩
    rw [hadd, Routine.demand_ok_bind_apply, Routine.bind_of_ok hrun₃, Routine.modify_bind_apply]
    cases second with
    | none =>
        obtain ⟨s₅, hrun₅, hlocals₅, hroot, h₅⟩ := h₄.setRoot hnode
        refine ⟨s₅, ?_, h₅, fun _ => by rw [hlocals₅, hroot]⟩
        rw [if_pos rfl, Routine.bind_of_ok hrun₅]
        rfl
    | some j => exact ⟨s₄, rfl, h₄, fun h => nomatch h⟩
  · rw [hadd]
    exact Or.inl ⟨rfl, rfl, hlarge⟩

/-- The condition of the loop. -/
def mergeCond (_ : Unit) : CRoutine TreeBuild Bool := do
  return decide ((← Routine.get).1.start < hufAsciiCount * 2)

/-- The body of the loop. -/
def mergeBody (_ : Unit) : CRoutine TreeBuild (LoopStep Unit) := mergeMinimum

/-- A construction whose first step does not overflow overflows later. -/
theorem Forest.overflows_iff {i : ℕ} {second : Option ℕ} {rate : ℤ}
    (hnext : forest.next = some (i, second))
    (hadd : addRates (toInt64 (forest.rate i)) (toInt64 (forest.second second).1) = .ok rate) :
    forest.Overflows ↔ ∃ j, second = some j ∧ (forest.join i (some j)).Overflows := by
  apply Iff.intro
  · intro h
    cases h with
    | here hnext' hadd' =>
        cases hnext.symm.trans hnext'
        cases hadd.symm.trans hadd'
    | later hnext' hlater =>
        cases hnext.symm.trans hnext'
        exact ⟨_, rfl, hlater⟩
  · intro h'
    rcases h' with ⟨j, rfl, h⟩
    exact .later hnext h

/-- How the loop may end when it starts in a forest: as the whole construction does,
with the last node as the root, or with an overflow. -/
def BuildPost (before : HistogramTree) (total : ℕ) (forest : Forest)
    (outcome : Outcome Fault HufError TreeBuild Unit) : Prop :=
  outcome = .error .signedOverflow ∧ forest.Overflows ∧ 2 ^ 63 ≤ total ∨
    ¬ forest.Overflows ∧ ∃ s', outcome = .ok (.ok (), s') ∧
      Renders before (forest.grow forest.live.card).plan s' ∧
      s'.2.tree.root =
        address s'.1.shadowTree (some ((forest.grow forest.live.card).node - 1))

/-- The loop goes through the whole construction. -/
theorem mergeLoop_eq {s : TreeBuild} (hrenders : Renders before forest.plan s)
    (hsound : forest.Sound bytes total) (htotal : total < 2 ^ 64) (hlive : forest.live.Nonempty)
    (hroom : forest.live.card + forest.node ≤ hufHistogramLen) {fuel : ℕ}
    (hfuel : forest.live.card < fuel) :
    BuildPost before total forest (Routine.whileLoop .endless mergeCond mergeBody fuel () s) := by
  refine Routine.whileLoop_rule
    (fun (forest : Forest) n _ s => Renders before forest.plan s ∧
      forest.Sound bytes total ∧ n = forest.live.card ∧ 0 < n ∧ n + forest.node ≤ hufHistogramLen)
    (BuildPost before total) ?_ hfuel
    ⟨hrenders, hsound, rfl, hlive.card_pos, hroom⟩
  rintro forest n _ s rest ⟨hrenders, hsound, rfl, hpos, hroom⟩ hrest
  have hnode : forest.node < hufHistogramLen := by omega
  obtain ⟨k, hk⟩ := Finset.card_pos.mp hpos
  have hstart : s.1.start < hufAsciiCount * 2 := by
    have hlive := Forest.mem_live.mp hk
    have hle : s.1.start ≤ k := by
      by_contra hlate
      exact hlive.2 (hrenders.start k (Nat.not_le.mp hlate))
    exact Nat.lt_trans (Nat.lt_of_le_of_lt hle hlive.1) hnode
  have hcond : mergeCond () s = .ok (.ok true, s) := by
    show Except.ok (Except.ok (decide _), s) = _
    rw [decide_eq_true hstart]
  obtain ⟨i, second, hchosen, hnext, hstep⟩ :=
    mergeMinimum_eq hrenders hsound htotal hnode ⟨k, hk⟩
  have hcard := hchosen.card_join (hsound.length_rates ▸ hnode)
  obtain ⟨m, hm⟩ : ∃ m, forest.live.card = m + 1 := ⟨forest.live.card - 1, by omega⟩
  rcases hstep with ⟨hfault, hadd, hlarge⟩ | ⟨⟨rate, hadd⟩, s', hok, hrenders', hroot⟩
  · rw [Routine.iteration_of_fault hcond hfault]
    exact Or.inl ⟨rfl, .here hnext hadd, hlarge⟩
  · -- this step does not overflow; a later one may
    have hiff := Forest.overflows_iff hnext hadd
    cases second with
    | none =>
        rw [Routine.iteration_of_leave hcond hok, BuildPost, hm, Forest.grow_single hnext]
        have hfits : ¬ forest.Overflows := fun h => by
          obtain ⟨j, hj, -⟩ := hiff.mp h
          cases hj
        exact Or.inr ⟨hfits, s', rfl, hrenders', hroot rfl⟩
    | some j =>
        have hlt := hchosen.one_lt_card
        rw [Routine.iteration_of_next hcond hok, BuildPost, hm, Forest.grow_pair hnext]
        have hoverflows : forest.Overflows ↔ (forest.join i (some j)).Overflows :=
          hiff.trans ⟨fun ⟨j', hj', h⟩ => Option.some.inj hj' ▸ h, fun h => ⟨j, rfl, h⟩⟩
        have hpost := hrest (forest.join i (some j)) m (by omega) () s'
          ⟨hrenders', hsound.join hchosen hnode, by omega, by omega,
            by simp only [Forest.node_join]; omega⟩
        rwa [BuildPost, show (forest.join i (some j)).live.card = m by omega, ← hoverflows]
          at hpost

end

/-! ## The whole construction -/

/-- What the construction is given: the rates of some bytes, an empty tree, and a
heap that does not run out of memory. -/
structure Buildable (s : HistogramTree) : Prop where
  rates : Forest.Countable s.histogram.frequencies
  start : ∀ k < s.histogram.start, s.histogram.frequencies.getD k 0 = 0
  leaves : s.tree.leaves = noLeaves
  allocations : s.heap.allocations = []

theorem address_replicate (n k : ℕ) : address (List.replicate n none) (some k) = none := by
  rw [address, Option.bind_some, List.getElem?_replicate]
  split <;> rfl

/-- The local variables of `huf_tree_from_histogram` before its loop. -/
def buildStart (s : HistogramTree) : TreeBuild :=
  (⟨List.replicate (hufAsciiCount * 2) none, s.histogram.start, hufAsciiCount⟩, s)

/-- At the beginning nothing is allocated. -/
theorem renders_seed {s : HistogramTree} (hleaves : s.tree.leaves.length = hufHistogramLen)
    (hstart : ∀ k < s.histogram.start, s.histogram.frequencies.getD k 0 = 0)
    (halloc : s.heap.allocations = []) :
    Renders s (Forest.seed s.histogram.frequencies).plan (buildStart s) := by
  have habsent : ∀ k, (Forest.seed s.histogram.frequencies).plan.slot k = none := by
    intro k
    rw [Forest.slot_plan, if_neg]
    rintro (⟨hle, hlt⟩ | hparent)
    · exact absurd (Nat.lt_of_le_of_lt hle hlt) (Nat.lt_irrefl _)
    · exact hparent rfl
  have haddress : ∀ k, address (List.replicate (hufAsciiCount * 2) none) (some k) = none :=
    address_replicate _
  have hpublished : ∀ k, (Forest.seed s.histogram.frequencies).plan.published k = false := by
    intro k
    rw [Forest.published_plan, decide_eq_false_iff_not]
    exact fun h => h.2 rfl
  constructor
  case length_shadow => exact List.length_replicate ..
  case absent => exact fun k _ => haddress k
  case present => exact fun k node hk => nomatch (habsent k).symm.trans hk
  case fresh => exact fun k p hp => nomatch (haddress k).symm.trans hp
  case injective => exact fun k m p hp => nomatch (haddress k).symm.trans hp
  case closed => exact fun k node m hk => nomatch (habsent k).symm.trans hk
  case frame => exact fun p _ => rfl
  case next_le => exact Nat.le_refl _
  case allocations => exact halloc
  case length_leaves => exact hleaves
  case leaves =>
    intro k hk
    rw [hpublished]
    rfl
  case published =>
    intro k hk
    rw [hpublished] at hk
    cases hk
  case histogram => rfl
  case node => rfl
  case start => exact hstart

/-- `huf_tree_from_histogram` leaves the nodes of the finished forest, with the last
one as the root, unless a signed sum overflows. What is in the leaves before does not
matter. -/
theorem hufTreeFromHistogram_ends {s : HistogramTree}
    (hrates : Forest.Countable s.histogram.frequencies)
    (hstart : ∀ k < s.histogram.start, s.histogram.frequencies.getD k 0 = 0)
    (hleaves : s.tree.leaves.length = hufHistogramLen) (halloc : s.heap.allocations = []) :
    hufTreeFromHistogram s = .error .signedOverflow ∧
        (Forest.seed s.histogram.frequencies).Overflows ∧
        2 ^ 63 ≤ (Forest.seed s.histogram.frequencies).pool.weight ∨
      ¬ (Forest.seed s.histogram.frequencies).Overflows ∧
      ∃ locals s', hufTreeFromHistogram s = .ok (.ok (), s') ∧
        Renders s (Forest.grown s.histogram.frequencies).plan (locals, s') ∧
        s'.tree.root =
          address locals.shadowTree (some ((Forest.grown s.histogram.frequencies).node - 1)) := by
  have hcard := Forest.card_counted_le s.histogram.frequencies
  rw [Forest.counted] at hcard
  have hroom : hufAsciiCount + (Forest.seed s.histogram.frequencies).node = hufHistogramLen := rfl
  have hfuel : (Forest.seed s.histogram.frequencies).live.card < hufAsciiCount * 2 + 1 := by omega
  have hloop := mergeLoop_eq (renders_seed hleaves hstart halloc)
    (Forest.sound_seed hrates.length hrates.above) hrates.total hrates.live (by omega) hfuel
  rw [hufTreeFromHistogram, Routine.get_bind_apply]
  rcases hloop with ⟨hfault, hlarge⟩ | ⟨hfits, ⟨locals, s'⟩, hok, hrenders, hroot⟩
  · exact Or.inl ⟨Routine.withLocal_of_fault (Routine.onFailure_of_fault hfault), hlarge⟩
  · exact Or.inr
      ⟨hfits, locals, s', Routine.withLocal_of_ok (Routine.onFailure_of_ok hok), hrenders, hroot⟩

theorem Buildable.length_leaves {s : HistogramTree} (h : Buildable s) :
    s.tree.leaves.length = hufHistogramLen := by
  rw [h.leaves]
  exact List.length_replicate ..

/-- The construction in an empty tree. -/
theorem hufTreeFromHistogram_renders {s : HistogramTree} (h : Buildable s) :
    hufTreeFromHistogram s = .error .signedOverflow ∧
        (Forest.seed s.histogram.frequencies).Overflows ∧
        2 ^ 63 ≤ (Forest.seed s.histogram.frequencies).pool.weight ∨
      ¬ (Forest.seed s.histogram.frequencies).Overflows ∧
      ∃ locals s', hufTreeFromHistogram s = .ok (.ok (), s') ∧
        Renders s (Forest.grown s.histogram.frequencies).plan (locals, s') ∧
        s'.tree.root =
          address locals.shadowTree (some ((Forest.grown s.histogram.frequencies).node - 1)) :=
  hufTreeFromHistogram_ends h.rates h.start h.length_leaves h.allocations

end LibHuffman
