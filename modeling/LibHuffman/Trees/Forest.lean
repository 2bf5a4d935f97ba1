/-
# The trees in the slots

`huf_tree_from_histogram` numbers the nodes: a byte stands for itself, and the
nodes that join two others are numbered from `HUF_ASCII_COUNT` on. A forest says
which tree hangs in each of these slots, and who is its parent. Seen as a pool of
weighted trees, the forest goes through Huffman's construction.
-/

import LibHuffman.Foundation.Huffman
import LibHuffman.Foundation.CodeTree
import LibHuffman.Trees.Minimum
import Mathlib.Algebra.Order.BigOperators.Group.Finset
import Mathlib.Data.Finset.Card

namespace LibHuffman

open Foundation

/-- The slots of the construction: their rates, the next free slot, their trees,
and the slots they have been joined under. -/
structure Forest where
  rates : List ℕ
  node : ℕ
  trees : ℕ → BinaryTree ℕ
  parent : ℕ → Option ℕ

namespace Forest

/-- The rate of a slot. -/
def rate (forest : Forest) (k : ℕ) : ℕ := forest.rates.getD k 0

/-- The slots that take part in the next step. -/
def live (forest : Forest) : Finset ℕ :=
  (Finset.range forest.node).filter fun k => forest.rate k ≠ 0

/-- The tree of a slot with its weight. -/
def entry (forest : Forest) (k : ℕ) : ℕ × BinaryTree ℕ := (forest.rate k, forest.trees k)

/-- The weighted trees of the next step. -/
def pool (forest : Forest) : Pool ℕ := forest.live.val.map forest.entry

/-- One leaf for every byte. -/
def seed (rates : List ℕ) : Forest where
  rates := rates
  node := hufAsciiCount
  trees k := .node k .nil .nil
  parent _ := none

/-- The slots that the scan finds. -/
def next (forest : Forest) : Option (ℕ × Option ℕ) :=
  let m := minimum (signedRate forest.rates) forest.node
  m.index1.map fun i => (i, m.index2)

/-- The tree of the second slot, if there is one. -/
def second (forest : Forest) (j : Option ℕ) : ℕ × BinaryTree ℕ :=
  match j with
  | none => (0, .nil)
  | some j => forest.entry j

/-- The rates without those of two slots. -/
def taken (rates : List ℕ) (i : ℕ) (j : Option ℕ) : List ℕ :=
  match j with
  | none => rates.set i 0
  | some j => (rates.set i 0).set j 0

/-- Join two slots under a new one. -/
def join (forest : Forest) (i : ℕ) (j : Option ℕ) : Forest where
  rates := (taken forest.rates i j).set forest.node (forest.rate i + (forest.second j).1)
  node := forest.node + 1
  trees := Function.update forest.trees forest.node
    (.node forest.node (forest.trees i) (forest.second j).2)
  parent k := if k = i ∨ some k = j then some forest.node else forest.parent k

/-- Join slots until one is left, and put a node over that one. -/
def grow : ℕ → Forest → Forest
  | 0, forest => forest
  | fuel + 1, forest =>
    match forest.next with
    | none => forest
    | some (i, none) => forest.join i none
    | some (i, some j) => grow fuel (forest.join i (some j))

/-- The node `k` joins the slots `i` and `j`. -/
structure Joins (forest : Forest) (k i : ℕ) (j : Option ℕ) : Prop where
  tree : forest.trees k = .node k (forest.trees i) (forest.second j).2
  lt : i < k
  parent : forest.parent i = some k
  lt_second : ∀ m, j = some m → m < k
  parent_second : ∀ m, j = some m → forest.parent m = some k
  ne : j ≠ some i

/-- The slots of a step: the only live one, or two of them. -/
inductive Chosen (forest : Forest) : ℕ → Option ℕ → Prop
  | single {i : ℕ} (hlive : forest.live = {i}) : Chosen forest i none
  | pair {i j : ℕ} (hi : i ∈ forest.live) (hj : j ∈ forest.live) (hne : i ≠ j) :
      Chosen forest i (some j)

/-- What holds of a forest that grows from the rates of some bytes. -/
structure Sound (bytes : Finset ℕ) (total : ℕ) (forest : Forest) : Prop where
  length_rates : forest.rates.length = hufHistogramLen
  bytes_lt : ∀ s ∈ bytes, s < hufAsciiCount
  le_node : hufAsciiCount ≤ forest.node
  above : ∀ k, forest.node ≤ k → forest.rate k = 0
  weight : forest.pool.weight = total
  content : forest.pool.content =
    bytes.val + (List.range' hufAsciiCount (forest.node - hufAsciiCount) : Multiset ℕ)
  leaf : ∀ k < hufAsciiCount, forest.trees k = .node k .nil .nil
  inner : ∀ k, hufAsciiCount ≤ k → k < forest.node → ∃ i j, forest.Joins k i j
  parent_iff : ∀ k, forest.parent k ≠ none ↔
    (k ∈ bytes ∨ hufAsciiCount ≤ k ∧ k < forest.node) ∧ forest.rate k = 0

section

variable {forest : Forest} {i j k : ℕ}

@[simp] theorem mem_live : k ∈ forest.live ↔ k < forest.node ∧ forest.rate k ≠ 0 := by
  rw [live, Finset.mem_filter, Finset.mem_range]

theorem weight_pool (forest : Forest) : forest.pool.weight = ∑ k ∈ forest.live, forest.rate k := by
  rw [Pool.weight, pool, Multiset.map_map]
  rfl

theorem rate_le (h : k ∈ forest.live) : forest.rate k ≤ forest.pool.weight := by
  rw [weight_pool]
  exact Finset.single_le_sum (f := forest.rate) (fun _ _ => Nat.zero_le _) h

/-! ## One step -/

/-- A pool with two of its entries in front. -/
theorem pool_pair (hi : i ∈ forest.live) (hj : j ∈ forest.live) (hne : i ≠ j) :
    forest.pool = forest.entry i ::ₘ forest.entry j ::ₘ
      ((forest.live.erase i).erase j).val.map forest.entry := by
  have hj' : j ∈ forest.live.erase i := Finset.mem_erase.mpr ⟨hne.symm, hj⟩
  rw [pool, ← Multiset.map_cons, ← Multiset.map_cons,
    ← Finset.insert_val_of_notMem (Finset.notMem_erase j _), Finset.insert_erase hj',
    ← Finset.insert_val_of_notMem (Finset.notMem_erase i _), Finset.insert_erase hi]

theorem getD_set_zero (xs : List ℕ) (m k : ℕ) :
    (xs.set m 0).getD k 0 = if k = m then 0 else xs.getD k 0 := by
  rw [List.getD_eq_getElem?_getD, List.getElem?_set, List.getD_eq_getElem?_getD]
  by_cases hm : m = k
  · subst hm
    by_cases hlt : m < xs.length <;> simp [hlt]
  · rw [if_neg hm, if_neg (Ne.symm hm)]

theorem getD_taken (rates : List ℕ) (i k : ℕ) (second : Option ℕ) :
    (taken rates i second).getD k 0 =
      if k = i ∨ some k = second then 0 else rates.getD k 0 := by
  cases second with
  | none => simp only [taken, getD_set_zero, reduceCtorEq, or_false]
  | some m =>
      simp only [taken, getD_set_zero, Option.some.injEq]
      by_cases hkm : k = m
      · rw [if_pos hkm, if_pos (Or.inr hkm)]
      · simp only [hkm, or_false, if_false]

@[simp] theorem length_taken (rates : List ℕ) (i : ℕ) (second : Option ℕ) :
    (taken rates i second).length = rates.length := by
  cases second <;> simp [taken]

@[simp] theorem node_join (second : Option ℕ) :
    (forest.join i second).node = forest.node + 1 := rfl

theorem rate_join_node {second : Option ℕ} (hnode : forest.node < forest.rates.length) :
    (forest.join i second).rate forest.node = forest.rate i + (forest.second second).1 := by
  rw [rate, join, List.getD_eq_getElem?_getD, List.getElem?_set_self (by rwa [length_taken]),
    Option.getD_some]

theorem rate_join {second : Option ℕ} (hk : k ≠ forest.node) :
    (forest.join i second).rate k =
      if k = i ∨ some k = second then 0 else forest.rate k := by
  rw [rate, join, List.getD_eq_getElem?_getD, List.getElem?_set_ne (Ne.symm hk),
    ← List.getD_eq_getElem?_getD, getD_taken]
  rfl

theorem trees_join {second : Option ℕ} (hk : k ≠ forest.node) :
    (forest.join i second).trees k = forest.trees k := Function.update_of_ne hk _ _

theorem trees_join_node {second : Option ℕ} :
    (forest.join i second).trees forest.node =
      .node forest.node (forest.trees i) (forest.second second).2 := Function.update_self _ _ _

/-- The slots that live after a step. -/
theorem live_join {second : Option ℕ} (hnode : forest.node < forest.rates.length)
    (hi : i ∈ forest.live) :
    (forest.join i second).live =
      insert forest.node ((forest.live.erase i).filter fun k => some k ≠ second) := by
  ext k
  rw [mem_live, Finset.mem_insert, Finset.mem_filter, Finset.mem_erase, mem_live]
  have hrate := (mem_live.mp hi).2
  by_cases hk : k = forest.node
  · subst hk
    rw [rate_join_node hnode]
    exact ⟨fun _ => Or.inl rfl, fun _ => ⟨Nat.lt_succ_self _, by omega⟩⟩
  · rw [rate_join hk, node_join]
    by_cases hout : k = i ∨ some k = second
    · rw [if_pos hout]
      refine ⟨fun h => absurd rfl h.2, fun h => ?_⟩
      rcases h with h | ⟨⟨hki, -⟩, hks⟩
      · exact absurd h hk
      · exact (hout.elim hki hks).elim
    · rw [if_neg hout]
      rw [not_or] at hout
      refine ⟨fun h => Or.inr ⟨⟨hout.1, by omega, h.2⟩, hout.2⟩, fun h => ?_⟩
      rcases h with h | ⟨⟨-, hlt, hrate⟩, -⟩
      · exact absurd h hk
      · exact ⟨by omega, hrate⟩

theorem live_join_single (hnode : forest.node < forest.rates.length) (hlive : forest.live = {i}) :
    (forest.join i none).live = {forest.node} := by
  rw [live_join hnode (hlive ▸ Finset.mem_singleton_self i), hlive]
  simp

theorem Chosen.mem_live {second : Option ℕ} (h : forest.Chosen i second) : i ∈ forest.live := by
  cases h with
  | single hlive => exact hlive ▸ Finset.mem_singleton_self i
  | pair hi _ _ => exact hi

theorem Chosen.second_mem_live {second : Option ℕ} (h : forest.Chosen i second) :
    ∀ j, second = some j → j ∈ forest.live ∧ j ≠ i := by
  rintro j rfl
  cases h with
  | pair _ hj hne => exact ⟨hj, hne.symm⟩

/-- The pool after two slots have been joined. -/
theorem pool_join (hi : i ∈ forest.live) (hnode : forest.node < forest.rates.length) :
    (forest.join i (some j)).pool =
      (forest.rate i + forest.rate j, .node forest.node (forest.trees i) (forest.trees j)) ::ₘ
        ((forest.live.erase i).erase j).val.map forest.entry := by
  have hlive' : (forest.join i (some j)).live =
      insert forest.node ((forest.live.erase i).erase j) := by
    simp only [live_join hnode hi, ← Finset.filter_ne', ne_eq, Option.some.injEq]
  have hrest : ((forest.live.erase i).erase j).val.map (forest.join i (some j)).entry =
      ((forest.live.erase i).erase j).val.map forest.entry := by
    apply Multiset.map_congr rfl
    intro k hk
    rw [Finset.mem_val, Finset.mem_erase, Finset.mem_erase, Forest.mem_live] at hk
    rcases hk with ⟨hkj, hki, hlt, -⟩
    rw [entry, rate_join (by omega), trees_join (by omega),
      if_neg (by rw [Option.some.injEq]; exact not_or.mpr ⟨hki, hkj⟩)]
    rfl
  have hfresh : forest.node ∉ (forest.live.erase i).erase j := by
    intro hmem
    have := (Forest.mem_live.mp (Finset.mem_of_mem_erase (Finset.mem_of_mem_erase hmem))).1
    omega
  rw [pool, hlive', Finset.insert_val_of_notMem hfresh, Multiset.map_cons, hrest, entry,
    rate_join_node hnode, trees_join_node]
  rfl

/-- A step of the forest is a step of Huffman's construction. -/
theorem Chosen.merge {second : Option ℕ} (h : forest.Chosen i second)
    (hnode : forest.node < forest.rates.length) :
    Pool.Merge forest.node forest.pool (forest.join i second).pool := by
  cases h with
  | single hlive =>
      rw [pool, pool, hlive, live_join_single hnode hlive, Finset.singleton_val,
        Finset.singleton_val, Multiset.map_singleton, Multiset.map_singleton, entry, entry,
        rate_join_node hnode, trees_join_node]
      exact .single (forest.entry i)
  | @pair j hi hj hne =>
      rw [pool_pair hi hj hne, pool_join hi hnode]
      exact .pair (forest.entry i) (forest.entry j) _

theorem card_pool (forest : Forest) : Multiset.card forest.pool = forest.live.card := by
  rw [pool, Multiset.card_map]
  rfl

end

/-! ## Every step -/

section

variable {forest : Forest} {bytes : Finset ℕ} {total i k : ℕ}

theorem Sound.rate_le (h : Sound bytes total forest) (k : ℕ) : forest.rate k ≤ total := by
  by_cases hk : k ∈ forest.live
  · exact h.weight ▸ Forest.rate_le hk
  · rw [mem_live, not_and_not_right] at hk
    by_cases hlt : k < forest.node
    · rw [hk hlt]
      exact Nat.zero_le _
    · rw [h.above k (Nat.not_lt.mp hlt)]
      exact Nat.zero_le _

theorem toInt64_eq_zero_iff {value : ℕ} (hvalue : value < 2 ^ 64) :
    toInt64 value = 0 ↔ value = 0 := by
  rw [toInt64]
  split <;> omega

/-- The scan finds the slots of a step. -/
theorem Sound.minimum_eq (h : Sound bytes total forest) (htotal : total < 2 ^ 64)
    (hlive : forest.live.Nonempty) :
    ∃ i second, forest.Chosen i second ∧
      minimum (signedRate forest.rates) forest.node =
        ⟨toInt64 (forest.rate i), toInt64 (forest.second second).1, some i, second⟩ := by
  have hiff : ∀ k, signedRate forest.rates k = 0 ↔ forest.rate k = 0 := fun k =>
    toInt64_eq_zero_iff (Nat.lt_of_le_of_lt (h.rate_le k) htotal)
  have hscan := scanned_minimum (signedRate forest.rates) forest.node
  generalize minimum (signedRate forest.rates) forest.node = m at hscan
  cases hscan with
  | absent hzero =>
      rcases hlive with ⟨k, hk⟩
      rw [mem_live] at hk
      exact absurd ((hiff k).mp (hzero k hk.1)) hk.2
  | @single i hi hne hzero =>
      refine ⟨i, none, .single ?_, rfl⟩
      ext k
      rw [mem_live, Finset.mem_singleton]
      apply Iff.intro
      · intro h'
        rcases h' with ⟨hlt, hrate⟩
        by_contra hki
        exact hrate ((hiff k).mp (hzero k hlt hki))
      · rintro rfl
        exact ⟨hi, fun hrate => hne ((hiff k).mpr hrate)⟩
  | @pair i j hi hj hne hlive₁ hlive₂ _ _ =>
      exact ⟨i, some j, .pair (mem_live.mpr ⟨hi, fun hrate => hlive₁ ((hiff i).mpr hrate)⟩)
        (mem_live.mpr ⟨hj, fun hrate => hlive₂ ((hiff j).mpr hrate)⟩) hne, rfl⟩

/-- The number of a slot is the value at its root. -/
theorem Sound.mem_values (h : Sound bytes total forest) (hk : k < forest.node) :
    k ∈ values (forest.trees k) := by
  by_cases hbyte : k < hufAsciiCount
  · rw [h.leaf k hbyte]
    exact List.mem_cons_self
  · obtain ⟨i, j, hjoin⟩ := h.inner k (Nat.not_lt.mp hbyte) hk
    rw [hjoin.tree]
    exact List.mem_cons_self

theorem mem_content {m : ℕ} (hk : k ∈ forest.live) (hm : m ∈ values (forest.trees k)) :
    m ∈ forest.pool.content := by
  obtain ⟨rest, hrest⟩ := Multiset.exists_cons_of_mem
    (Multiset.mem_map_of_mem forest.entry (Finset.mem_val.mpr hk))
  rw [pool, hrest, Pool.content_cons, Multiset.mem_add]
  exact Or.inl hm

/-- A live slot belongs to a byte that was counted or to a joining node. -/
theorem Sound.live_cases (h : Sound bytes total forest) (hk : k ∈ forest.live) :
    k ∈ bytes ∨ hufAsciiCount ≤ k ∧ k < forest.node := by
  have hlt := (mem_live.mp hk).1
  have hmem := mem_content hk (h.mem_values hlt)
  rw [h.content, Multiset.mem_add] at hmem
  rcases hmem with hbyte | hnode
  · exact Or.inl hbyte
  · rw [Multiset.mem_coe, List.mem_range'_1] at hnode
    exact Or.inr ⟨hnode.1, hlt⟩

/-- Both slots of a step are live. -/
theorem Chosen.live {second : Option ℕ} (h : forest.Chosen i second)
    (hk : k = i ∨ some k = second) : k ∈ forest.live := by
  rcases hk with rfl | hk
  · exact h.mem_live
  · exact (h.second_mem_live k hk.symm).1

/-- The slots of a step have no parent yet. -/
theorem Sound.parent_eq_none {second : Option ℕ} (h : Sound bytes total forest)
    (hchosen : forest.Chosen i second) (hk : k = i ∨ some k = second) :
    forest.parent k = none := by
  by_contra hparent
  exact (Forest.mem_live.mp (hchosen.live hk)).2 ((h.parent_iff k).mp hparent).2

/-- The tree of an older slot stays. -/
theorem second_join {second other : Option ℕ} (h : ∀ m, other = some m → m < forest.node) :
    ((forest.join i second).second other).2 = (forest.second other).2 := by
  cases other with
  | none => rfl
  | some m => exact trees_join (Nat.ne_of_lt (h m rfl))

/-- The new slot joins the slots of the step. -/
theorem Chosen.joins {second : Option ℕ} (hchosen : forest.Chosen i second) :
    (forest.join i second).Joins forest.node i second := by
  have hi := (Forest.mem_live.mp hchosen.mem_live).1
  have hsecond : ∀ m, second = some m → m < forest.node := fun m hm =>
    (Forest.mem_live.mp (hchosen.second_mem_live m hm).1).1
  constructor
  case tree => rw [trees_join_node, trees_join (Nat.ne_of_lt hi), second_join hsecond]
  case lt => exact hi
  case parent => exact if_pos (Or.inl rfl)
  case lt_second => exact hsecond
  case parent_second => exact fun m hm => if_pos (Or.inr hm.symm)
  case ne => exact fun hsame => (hchosen.second_mem_live i hsame).2 rfl

/-- An older slot keeps what it has joined. -/
theorem Sound.joins_join {second other : Option ℕ} (h : Sound bytes total forest)
    (hchosen : forest.Chosen i second) (hk : k < forest.node) (hjoin : forest.Joins k j other) :
    (forest.join i second).Joins k j other := by
  have hkeep : ∀ m, forest.parent m = some k → (forest.join i second).parent m = some k := by
    intro m hm
    rw [← hm]
    refine if_neg fun hout => ?_
    rw [h.parent_eq_none hchosen hout] at hm
    cases hm
  have hlt := hjoin.lt
  constructor
  case tree =>
    rw [trees_join (Nat.ne_of_lt hk), trees_join (by omega), hjoin.tree,
      second_join fun m hm => Nat.lt_trans (hjoin.lt_second m hm) hk]
  case lt => exact hlt
  case parent => exact hkeep j hjoin.parent
  case lt_second => exact hjoin.lt_second
  case parent_second => exact fun m hm => hkeep m (hjoin.parent_second m hm)
  case ne => exact hjoin.ne

/-- The slots of the step get their parent, and the new slot has none. -/
theorem Sound.parent_join_iff {second : Option ℕ} (h : Sound bytes total forest)
    (hchosen : forest.Chosen i second) (hnode : forest.node < hufHistogramLen) (k : ℕ) :
    (forest.join i second).parent k ≠ none ↔
      (k ∈ bytes ∨ hufAsciiCount ≤ k ∧ k < forest.node + 1) ∧
        (forest.join i second).rate k = 0 := by
  have hle := h.le_node
  show (if k = i ∨ some k = second then some forest.node else forest.parent k) ≠ none ↔ _
  by_cases hk : k = i ∨ some k = second
  · have hmem := hchosen.live hk
    have hlt := (Forest.mem_live.mp hmem).1
    rw [if_pos hk, rate_join (by omega), if_pos hk]
    have hcases := h.live_cases hmem
    exact ⟨fun _ => ⟨hcases.imp_right fun hk => ⟨hk.1, by omega⟩, rfl⟩,
      fun _ => Option.some_ne_none _⟩
  rw [if_neg hk, h.parent_iff k]
  by_cases hnew : k = forest.node
  · subst hnew
    have hi := (Forest.mem_live.mp hchosen.mem_live).2
    have hbyte : forest.node ∉ bytes := fun hmem => absurd (h.bytes_lt _ hmem) (by omega)
    rw [rate_join_node (h.length_rates ▸ hnode)]
    apply Iff.intro
    · intro h'
      rcases h' with ⟨hbyte' | hlt, -⟩
      · exact absurd hbyte' hbyte
      · omega
    · intro h'
      rcases h' with ⟨-, hsum⟩
      omega
  · have hiff : k < forest.node + 1 ↔ k < forest.node := by omega
    rw [rate_join hnew, if_neg hk, hiff]

/-- A step keeps a forest sound. -/
theorem Sound.join {second : Option ℕ} (h : Sound bytes total forest)
    (hchosen : forest.Chosen i second) (hnode : forest.node < hufHistogramLen) :
    Sound bytes total (forest.join i second) := by
  have hmerge := hchosen.merge (h.length_rates ▸ hnode : forest.node < forest.rates.length)
  have hle := h.le_node
  constructor
  case length_rates => simp [Forest.join, h.length_rates]
  case bytes_lt => exact h.bytes_lt
  case le_node => exact Nat.le_succ_of_le hle
  case above =>
    intro k hk
    rw [node_join] at hk
    rw [rate_join (by omega), h.above k (by omega), ite_self]
  case weight => rw [hmerge.weight_eq, h.weight]
  case content =>
    rw [hmerge.content_eq, h.content, node_join, Nat.sub_add_comm hle, List.range'_concat,
      Nat.one_mul, Nat.add_sub_cancel' hle, ← Multiset.coe_add, ← Multiset.add_assoc,
      Multiset.coe_singleton, Multiset.add_comm _ {forest.node}, Multiset.singleton_add]
  case leaf =>
    intro k hk
    rw [trees_join (by omega), h.leaf k hk]
  case inner =>
    intro k hk hlt
    rw [node_join] at hlt
    by_cases hnew : k = forest.node
    · exact ⟨i, second, hnew ▸ hchosen.joins⟩
    · have hold : k < forest.node := by omega
      obtain ⟨i', j', hjoin⟩ := h.inner k hk hold
      exact ⟨i', j', h.joins_join hchosen hold hjoin⟩
  case parent_iff => exact h.parent_join_iff hchosen hnode

end

/-! ## The whole construction -/

section

variable {forest : Forest} {bytes : Finset ℕ} {total i j k : ℕ}

theorem next_eq {second : Option ℕ} {rate₁ rate₂ : ℤ}
    (h : minimum (signedRate forest.rates) forest.node = ⟨rate₁, rate₂, some i, second⟩) :
    forest.next = some (i, second) := by
  rw [next, h]
  rfl

/-- The indices that the scan finds. -/
theorem minimum_of_next {second : Option ℕ} (h : forest.next = some (i, second)) :
    (minimum (signedRate forest.rates) forest.node).index1 = some i ∧
      (minimum (signedRate forest.rates) forest.node).index2 = second := by
  rw [next, Option.map_eq_some_iff] at h
  rcases h with ⟨i', hi, hpair⟩
  cases hpair
  exact ⟨hi, rfl⟩

theorem grow_single {fuel : ℕ} (h : forest.next = some (i, none)) :
    forest.grow (fuel + 1) = forest.join i none := by
  rw [grow, h]

theorem grow_pair {fuel : ℕ} (h : forest.next = some (i, some j)) :
    forest.grow (fuel + 1) = (forest.join i (some j)).grow fuel := by
  rw [grow, h]

theorem Chosen.card_eq_one (h : forest.Chosen i none) : forest.live.card = 1 := by
  cases h with
  | single hlive => rw [hlive, Finset.card_singleton]

theorem Chosen.card_join {second : Option ℕ} (h : forest.Chosen i second)
    (hnode : forest.node < forest.rates.length) :
    (forest.join i second).live.card = max 1 (forest.live.card - 1) := by
  rw [← card_pool, (h.merge hnode).card_eq, card_pool]

theorem Chosen.one_lt_card (h : forest.Chosen i (some j)) : 1 < forest.live.card := by
  cases h with
  | pair hi hj hne => exact Finset.one_lt_card.mpr ⟨i, hi, j, hj, hne⟩

/-- The construction goes from one forest to its last one, joining two slots in every
step and one in the last. -/
inductive Grows : Forest → Forest → Prop
  | last {forest : Forest} {i : ℕ} (hnode : forest.node < hufHistogramLen)
      (hchosen : forest.Chosen i none) (hnext : forest.next = some (i, none)) :
      Grows forest (forest.join i none)
  | more {forest grown : Forest} {i j : ℕ} (hnode : forest.node < hufHistogramLen)
      (hchosen : forest.Chosen i (some j)) (hnext : forest.next = some (i, some j))
      (hlater : Grows (forest.join i (some j)) grown) : Grows forest grown

/-- The whole construction from a sound forest. -/
theorem Sound.grows (h : Sound bytes total forest) (htotal : total < 2 ^ 64)
    (hlive : forest.live.Nonempty) (hroom : forest.live.card + forest.node ≤ hufHistogramLen) :
    Grows forest (forest.grow forest.live.card) := by
  generalize hn : forest.live.card = n at hroom ⊢
  induction n generalizing forest with
  | zero =>
      have := hlive.card_pos
      omega
  | succ n ih =>
      have hnode : forest.node < hufHistogramLen := by omega
      obtain ⟨i, second, hchosen, hmin⟩ := h.minimum_eq htotal hlive
      have hcard := hchosen.card_join (h.length_rates ▸ hnode)
      cases second with
      | none =>
          rw [grow_single (next_eq hmin)]
          exact .last hnode hchosen (next_eq hmin)
      | some j =>
          have := hchosen.one_lt_card
          rw [grow_pair (next_eq hmin)]
          apply Grows.more hnode hchosen (next_eq hmin)
          exact ih (h.join hchosen hnode) (Finset.card_pos.mp (by omega)) (by omega)
            (by simp only [node_join]; omega)

section

variable {grown : Forest}

theorem Grows.sound (hgrows : Grows forest grown) (h : Sound bytes total forest) :
    Sound bytes total grown := by
  induction hgrows with
  | last hnode hchosen _ => exact h.join hchosen hnode
  | more hnode hchosen _ _ ih => exact ih (h.join hchosen hnode)

/-- Every step takes the next free slot. -/
theorem Grows.node_eq (hgrows : Grows forest grown) (h : Sound bytes total forest) :
    grown.node = forest.live.card + forest.node := by
  induction hgrows with
  | last _ hchosen _ =>
      rw [node_join, hchosen.card_eq_one, Nat.add_comm]
  | more hnode hchosen _ _ ih =>
      have hlt := hchosen.one_lt_card
      rw [ih (h.join hchosen hnode), hchosen.card_join (h.length_rates ▸ hnode), node_join]
      omega

theorem Grows.live_eq (hgrows : Grows forest grown) (h : Sound bytes total forest) :
    grown.live = {grown.node - 1} := by
  induction hgrows with
  | last hnode hchosen _ =>
      cases hchosen with
      | single hlive => exact live_join_single (h.length_rates ▸ hnode) hlive
  | more hnode hchosen _ _ ih => exact ih (h.join hchosen hnode)

end

/-- The bytes that the rates count, one leaf each, are sound. -/
theorem sound_seed {rates : List ℕ} (hlen : rates.length = hufHistogramLen)
    (habove : ∀ k, hufAsciiCount ≤ k → rates.getD k 0 = 0) :
    Sound (seed rates).live (seed rates).pool.weight (seed rates) := by
  have hnode : (seed rates).node = hufAsciiCount := rfl
  constructor
  case length_rates => exact hlen
  case bytes_lt => exact fun s hs => (mem_live.mp hs).1
  case le_node => exact Nat.le_refl _
  case above => exact habove
  case weight => rfl
  case content =>
    have hsum : (seed rates).pool.content = ((seed rates).live.val.map fun k => {k}).sum := by
      rw [Pool.content, pool, Multiset.map_map]
      rfl
    rw [hsum, Multiset.sum_map_singleton, hnode, Nat.sub_self, List.range'_zero,
      Multiset.coe_nil, Multiset.add_zero]
  case leaf => exact fun k _ => rfl
  case inner =>
    intro k hk hlt
    omega
  case parent_iff =>
    intro k
    rw [hnode]
    refine ⟨fun h => absurd rfl h, ?_⟩
    intro h'
    rcases h' with ⟨hk | hk, hrate⟩
    · exact absurd hrate (mem_live.mp hk).2
    · omega

/-- The forest that the construction ends with. -/
def grown (rates : List ℕ) : Forest := (seed rates).grow (seed rates).live.card

/-- The bytes that the rates count. -/
def counted (rates : List ℕ) : Finset ℕ := (seed rates).live

theorem mem_counted {rates : List ℕ} :
    k ∈ counted rates ↔ k < hufAsciiCount ∧ rates.getD k 0 ≠ 0 := by
  rw [counted, mem_live]
  rfl

theorem card_counted_le (rates : List ℕ) : (counted rates).card ≤ hufAsciiCount := by
  have := Finset.card_filter_le (Finset.range hufAsciiCount) fun k => (seed rates).rate k ≠ 0
  rwa [Finset.card_range] at this

/-- Rates of bytes, at least one of them other than zero. -/
structure Countable (rates : List ℕ) : Prop where
  length : rates.length = hufHistogramLen
  above : ∀ k, hufAsciiCount ≤ k → rates.getD k 0 = 0
  live : (counted rates).Nonempty
  total : (seed rates).pool.weight < 2 ^ 64

/-- A path leads to every byte in a tree. -/
theorem Sound.path (h : Sound bytes total forest) {m : ℕ} (hm : m < hufAsciiCount)
    (hk : k < forest.node) (hmem : m ∈ values (forest.trees k)) :
    ∃ bits, Path (forest.trees k) bits m := by
  induction k using Nat.strong_induction_on with
  | _ k ih =>
      by_cases hbyte : k < hufAsciiCount
      · rw [h.leaf k hbyte] at hmem ⊢
        rw [List.mem_singleton.mp hmem]
        exact ⟨[], .leaf k⟩
      · obtain ⟨i, second, hjoin⟩ := h.inner k (Nat.not_lt.mp hbyte) hk
        rw [hjoin.tree, values, List.mem_cons, List.mem_append] at hmem
        rw [hjoin.tree]
        rcases hmem with rfl | hmem | hmem
        · exact absurd hm hbyte
        · obtain ⟨bits, hpath⟩ := ih i hjoin.lt (Nat.lt_trans hjoin.lt hk) hmem
          exact ⟨false :: bits, .left hpath⟩
        · cases second with
          | none => exact absurd hmem List.not_mem_nil
          | some j =>
              have hlt := hjoin.lt_second j rfl
              obtain ⟨bits, hpath⟩ := ih j hlt (Nat.lt_trans hlt hk) hmem
              exact ⟨true :: bits, .right hpath⟩

end

end Forest

/-! ## The finished tree -/

/-- The tree of a histogram. -/
def hufTree (rates : List ℕ) : BinaryTree ℕ :=
  (Forest.grown rates).trees ((Forest.grown rates).node - 1)

section

variable {rates : List ℕ}

theorem Forest.Countable.grows (h : Forest.Countable rates) :
    Forest.Grows (Forest.seed rates) (Forest.grown rates) := by
  have hcard := Forest.card_counted_le rates
  apply (Forest.sound_seed h.length h.above).grows h.total h.live
  show (Forest.counted rates).card + hufAsciiCount ≤ hufAsciiCount + hufAsciiCount
  omega

theorem Forest.Countable.grown (h : Forest.Countable rates) :
    Forest.Sound (Forest.counted rates) (Forest.seed rates).pool.weight (Forest.grown rates) ∧
      (Forest.grown rates).node = (Forest.counted rates).card + hufAsciiCount ∧
      (Forest.grown rates).live = {(Forest.grown rates).node - 1} := by
  have hsound := Forest.sound_seed h.length h.above
  exact ⟨h.grows.sound hsound, h.grows.node_eq hsound, h.grows.live_eq hsound⟩

/-- In the finished forest the bytes with a parent are those that were counted. -/
theorem Forest.Countable.parent_iff (h : Forest.Countable rates) {byte : ℕ}
    (hbyte : byte < hufAsciiCount) :
    (Forest.grown rates).parent byte ≠ none ↔ byte ∈ Forest.counted rates := by
  obtain ⟨hsound, hnode, hlive⟩ := h.grown
  have hpos := h.live.card_pos
  have hrate : (Forest.grown rates).rate byte = 0 := by
    by_contra hrate
    have hmem : byte ∈ (Forest.grown rates).live := Forest.mem_live.mpr ⟨by omega, hrate⟩
    rw [hlive, Finset.mem_singleton] at hmem
    omega
  rw [hsound.parent_iff]
  exact ⟨fun h => h.1.resolve_right fun hlt => by omega, fun h => ⟨Or.inl h, hrate⟩⟩

/-- The values in the tree are the bytes that were counted, and as many numbers of
joining nodes. -/
theorem Forest.Countable.values_eq (h : Forest.Countable rates) :
    (values (hufTree rates) : Multiset ℕ) = (Forest.counted rates).val +
      (List.range' hufAsciiCount (Forest.counted rates).card : Multiset ℕ) := by
  obtain ⟨hsound, hnode, hlive⟩ := h.grown
  have hcontent := hsound.content
  rw [Forest.pool, hlive, Finset.singleton_val, Multiset.map_singleton, Pool.content_singleton,
    hnode, Nat.add_sub_cancel] at hcontent
  rw [← hcontent, hufTree, hnode]
  rfl

theorem Forest.Countable.values_nodup (h : Forest.Countable rates) :
    (values (hufTree rates)).Nodup := by
  rw [← Multiset.coe_nodup, h.values_eq, Multiset.nodup_add]
  refine ⟨Finset.nodup _, Multiset.coe_nodup.mpr List.nodup_range', ?_⟩
  rw [Multiset.disjoint_left]
  intro k hbyte hnode
  have hlt := (Forest.mem_live.mp (Finset.mem_val.mp hbyte)).1
  rw [Multiset.mem_coe, List.mem_range'_1] at hnode
  exact absurd hlt (Nat.not_lt.mpr hnode.1)

theorem Forest.Countable.mem_values (h : Forest.Countable rates) {k : ℕ} :
    k ∈ values (hufTree rates) ↔ k ∈ Forest.counted rates ∨
      hufAsciiCount ≤ k ∧ k < hufAsciiCount + (Forest.counted rates).card := by
  rw [← Multiset.mem_coe, h.values_eq, Multiset.mem_add, Finset.mem_val, Multiset.mem_coe,
    List.mem_range'_1]

/-- Every byte that was counted costs two nodes. -/
theorem Forest.Countable.numNodes_eq (h : Forest.Countable rates) :
    (hufTree rates).numNodes = 2 * (Forest.counted rates).card := by
  have hcard := congrArg Multiset.card h.values_eq
  rw [Multiset.coe_card, length_values, Multiset.card_add, Multiset.coe_card, List.length_range',
    Finset.card_val] at hcard
  omega

/-- The code of a byte: the path to it in the tree. -/
def hufCode (rates : List ℕ) (byte : ℕ) : List Bool := (pathTo byte (hufTree rates)).getD []

theorem Forest.Countable.path_hufCode (h : Forest.Countable rates) {byte : ℕ}
    (hbyte : byte ∈ Forest.counted rates) : Path (hufTree rates) (hufCode rates byte) byte := by
  obtain ⟨hsound, hnode, -⟩ := h.grown
  have hpos := h.live.card_pos
  obtain ⟨bits, hpath⟩ := hsound.path (Forest.mem_live.mp hbyte).1
    (k := (Forest.grown rates).node - 1) (by omega) (h.mem_values.mpr (Or.inl hbyte))
  have hcode := hpath.pathTo_eq h.values_nodup
  rw [hufCode, hufTree, hcode, Option.getD_some]
  exact hpath

/-- The root is a joining node, so no code is empty. -/
theorem Forest.Countable.hufCode_ne_nil (h : Forest.Countable rates) {byte : ℕ}
    (hbyte : byte ∈ Forest.counted rates) : hufCode rates byte ≠ [] := by
  intro hnil
  have hpath := h.path_hufCode hbyte
  rw [hnil, path_nil_iff] at hpath
  have hcard := h.numNodes_eq
  have hpos := h.live.card_pos
  rw [hpath] at hcard
  simp only [BinaryTree.numNodes] at hcard
  omega

end

end LibHuffman
