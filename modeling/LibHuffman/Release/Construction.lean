/-
# The nodes of a construction

Every node that `huf_tree_from_histogram` allocates goes into a slot of `shadow_tree` that
was empty, so the slots are the cells of the run at any time. At the end the tree has all of
them as its nodes; after a failure all of them are released.
-/

import LibHuffman.Allocation.Abandoned
import LibHuffman.Allocation.Build
import LibHuffman.Release.Heap
import LibHuffman.Trees.Shape

namespace LibHuffman

open Foundation Allocating

/-! ## Slots -/

/-- The addresses in the slots from `n` on. -/
def slotsFrom (shadow : List (Option ℕ)) (n : ℕ) : Set ℕ :=
  {p | ∃ k, n ≤ k ∧ address shadow (some k) = some p}

/-- The slots hold the cells. -/
structure Sheltering (base : Heap) (b : TreeBuild) : Prop where
  grown : GrownBy base (slotsFrom b.1.shadowTree 0) b.2.heap
  bounded : b.2.heap.Bounded

/-- The slots hold the cells, and those from `n` on are empty. -/
structure Filling (base : Heap) (n : ℕ) (b : TreeBuild) : Prop extends Sheltering base b where
  above : ∀ k, n ≤ k → address b.1.shadowTree (some k) = none

section

variable {base : Heap} {n k : ℕ} {E : HufError → TreeBuild → Prop}

theorem address_of_load {shadow : List (Option ℕ)} {pointer : Option ℕ}
    (h : load shadow k = .ok pointer) : address shadow (some k) = pointer := by
  rw [address, Option.bind_some, load_eq_ok h]
  rfl

/-- A node for an empty slot. -/
theorem mallocShadow_fills (hbound : k < n) {m : ℕ} (hm : m ≤ n) :
    Triple (fun b => Filling base m b ∧ address b.1.shadowTree (some k) = none)
      (TreeBuild.mallocShadow k) (fun _ => Filling base n) fun _ => Sheltering base := by
  apply Triple.fix
  rintro b ⟨h, hempty⟩
  apply Triple.bind (Q := fun p b' => ∃ outcomes, p = b.2.heap.next ∧
    b' = (b.1, { b.2 with heap := { b.2.heap.extend with allocations := outcomes } }))
  · apply Triple.within
    rintro _ rfl
    apply Endures.triple
    apply Heap.mallocNode_endures
    · rintro heap outcomes ⟨⟩
      exact ⟨h.grown.of_nodes rfl rfl, h.bounded⟩
    · rintro heap outcomes ⟨⟩
      exact ⟨outcomes, rfl, rfl⟩
  · intro p
    apply Triple.fetch_bind
    intro shadow
    apply Triple.modify
    rintro _ ⟨hstore, outcomes, rfl, rfl⟩
    rw [store] at hstore
    split at hstore
    · rename_i hk
      cases hstore
      have hself := address_set_self hk b.2.heap.next
      have hother : ∀ i, i ≠ k → address (b.1.shadowTree.set k (some b.2.heap.next)) (some i) =
          address b.1.shadowTree (some i) := fun i hi => address_set_of_ne hi _ _
      refine ⟨⟨(h.grown.extend outcomes).mono ?_ ?_, h.bounded.extend⟩, ?_⟩
      · rintro q (rfl | ⟨i, hi, hq⟩)
        · exact ⟨k, Nat.zero_le k, hself⟩
        · have hik : i ≠ k := by
            rintro rfl
            rw [hempty] at hq
            cases hq
          exact ⟨i, hi, (hother i hik).trans hq⟩
      · rintro q ⟨i, hi, hq⟩
        by_cases hik : i = k
        · subst hik
          cases hself.symm.trans hq
          exact h.grown.next_le
        · exact h.grown.fresh q ⟨i, hi, (hother i hik).symm.trans hq⟩
      · intro i hi
        have hik : i ≠ k := Nat.ne_of_gt (Nat.lt_of_lt_of_le hbound hi)
        exact (hother i hik).trans (h.above i (Nat.le_trans hm hi))
    · cases hstore

/-- A change of the node in a slot. -/
theorem updateShadow_fills (k : ℕ) (change : HufNode → HufNode) :
    Triple (Filling base n) (TreeBuild.updateShadow k change) (fun _ => Filling base n)
      fun _ => Sheltering base := by
  apply Triple.fetch_bind
  intro pointer
  apply Triple.within
  rintro b ⟨hload, h⟩
  apply Endures.triple
  apply Heap.update_endures
  rintro heap p node ⟨⟩ rfl hnode
  have hmem : p ∈ slotsFrom b.1.shadowTree 0 := ⟨k, Nat.zero_le k, address_of_load hload⟩
  exact ⟨⟨h.grown.put hmem _, h.bounded.put (h.bounded.lt hnode) _⟩, h.above⟩

/-- A change of what is neither a slot nor a node. -/
theorem Filling.same {b b' : TreeBuild} (h : Filling base n b)
    (hslots : b'.1.shadowTree = b.1.shadowTree) (hheap : b'.2.heap = b.2.heap) :
    Filling base n b' := by
  refine ⟨⟨?_, hheap ▸ h.bounded⟩, hslots ▸ h.above⟩
  rw [hslots, hheap]
  exact h.grown

theorem setRate_fills (k rate : ℕ) :
    Triple (Filling base n) (TreeBuild.setRate k rate) (fun _ => Filling base n) E := by
  apply Triple.fetch_bind
  intro frequencies
  exact Triple.modify fun _ h => h.2.same rfl rfl

theorem allocateChild_fills (index : Option ℕ) (hindex : ∀ k, index = some k → k < n) :
    Triple (Filling base n) (allocateChild index) (fun _ => Filling base n)
      fun _ => Sheltering base := by
  cases index with
  | none => exact Triple.pure fun _ h => h
  | some k =>
      apply Triple.fetch_bind
      intro pointer
      apply Triple.ite
      · rintro rfl
        apply (mallocShadow_fills (hindex k rfl) (Nat.le_refl n)).strengthen
        exact fun b h => ⟨h.2, address_of_load h.1⟩
      · exact fun _ => Triple.pure fun _ h => h.2

theorem publishLeaf_fills (index : Option ℕ) :
    Triple (Filling base n) (publishLeaf index) (fun _ => Filling base n) E := by
  cases index with
  | none => exact Triple.pure fun _ h => h
  | some k =>
      apply Triple.ite
      · intro _
        apply Triple.fetch_bind
        intro pointer
        apply Triple.fetch_bind
        intro leaves
        exact Triple.modify fun _ h => h.2.2.same rfl rfl
      · exact fun _ => Triple.pure fun _ h => h

theorem linkChild_fills (node : ℕ) (index : Option ℕ) (attach : Option ℕ → HufNode → HufNode) :
    Triple (Filling base n) (linkChild node index attach) (fun _ => Filling base n)
      fun _ => Sheltering base := by
  cases index with
  | none => exact Triple.pure fun _ h => h
  | some k =>
      apply Triple.fetch_bind
      intro parent
      apply Triple.strengthen (P := Filling base n) _ fun _ h => h.2
      apply (updateShadow_fills k _).bind
      intro _
      apply (updateShadow_fills k _).bind
      intro _
      apply Triple.fetch_bind
      intro pointer
      apply Triple.strengthen (P := Filling base n) _ fun _ h => h.2
      apply (updateShadow_fills node _).bind
      intro _
      exact setRate_fills k 0

theorem setRoot_fills (slot : ℕ) :
    Triple (Filling base n) (do
      TreeBuild.setRoot slot
      return .leave ()) (fun (step : LoopStep Unit) b => Sheltering base b ∧
        (step = .next () → Filling base b.1.node b)) E := by
  apply Triple.bind (Q := fun _ => Filling base n)
  · apply Triple.fetch_bind
    intro root
    exact Triple.modify fun _ h => h.2.same rfl rfl
  · intro _
    exact Triple.pure fun b h => ⟨h.toSheltering, fun hstep => by cases hstep⟩

/-- One iteration fills slots that were empty. -/
theorem mergeMinimum_fills :
    Triple (fun b => Filling base b.1.node b) mergeMinimum
      (fun step b => Sheltering base b ∧ (step = .next () → Filling base b.1.node b))
      fun _ => Sheltering base := by
  apply Triple.get_bind
  intro s₀
  apply Triple.strengthen (P := fun b => Filling base b.1.node b) _ fun _ h => h.2
  apply Triple.fetch_bind
  intro start
  apply Triple.bind (Q := fun _ b => Filling base b.1.node b)
  · exact Triple.modify fun _ h => h.2.same rfl rfl
  intro _
  apply Triple.get_bind
  intro s₁
  generalize hn : s₁.1.node = n
  apply Triple.strengthen (P := Filling base n)
  swap
  · rintro _ ⟨rfl, h⟩
    exact hn ▸ h
  apply Triple.demand_bind
  intro m hm
  rcases findMinimum_indices hm with ⟨-, hbelow, -⟩
  apply Triple.ite
  · exact fun _ => setRoot_fills _
  intro _
  apply (allocateChild_fills _ fun k hk => hbelow k (.inl hk)).bind
  intro _
  apply (allocateChild_fills _ fun k hk => hbelow k (.inr hk)).bind
  intro _
  apply Triple.bind (Q := fun _ => Filling base (n + 1))
  · apply (mallocShadow_fills (Nat.lt_succ_self n) (Nat.le_succ n)).strengthen
    exact fun b h => ⟨h, h.above n (Nat.le_refl n)⟩
  intro _
  apply (publishLeaf_fills _).bind
  intro _
  apply (publishLeaf_fills _).bind
  intro _
  apply (updateShadow_fills _ _).bind
  intro _
  apply (updateShadow_fills _ _).bind
  intro _
  apply (linkChild_fills _ _ _).bind
  intro _
  apply (linkChild_fills _ _ _).bind
  intro _
  apply (updateShadow_fills _ _).bind
  intro _
  apply Triple.demand_bind
  intro rate _
  apply (setRate_fills _ _).bind
  intro _
  apply Triple.bind (Q := fun _ b => b.1.node = n + 1 ∧ Filling base (n + 1) b)
  · exact Triple.modify fun _ h => ⟨rfl, h.same rfl rfl⟩
  intro _
  apply Triple.ite
  · exact fun _ => (setRoot_fills _).strengthen fun _ h => h.2
  · exact fun _ => Triple.pure fun b h => ⟨h.2.toSheltering, fun _ => h.1.symm ▸ h.2⟩

/-- Wherever the loop ends, the slots hold the cells. -/
theorem mergeLoop_shelters (fuel : ℕ) :
    Triple (fun b => Filling base b.1.node b)
      (Routine.whileLoop .endless mergeCond mergeBody fuel ()) (fun _ => Sheltering base)
      fun _ => Sheltering base := by
  apply Triple.whileLoop fun _ b => Filling base b.1.node b
  · intro _
    apply Triple.get_bind
    intro b₀
    apply Triple.pure
    rintro _ ⟨rfl, h⟩
    split
    · exact h
    · exact h.toSheltering
  · intro _
    apply mergeMinimum_fills.weaken
    intro step b h
    cases step with
    | next _ => exact h.2 rfl
    | leave _ => exact h.1

/-- After a failure the slots are released one after the other. -/
theorem freeShadow_releases (hbase : base.Bounded) :
    Triple (Sheltering base) freeShadow
      (fun _ b => GrownBy base ∅ b.2.heap ∧ b.2.heap.Bounded)
      fun _ b => GrownBy base ∅ b.2.heap ∧ b.2.heap.Bounded := by
  apply Triple.get_bind
  intro b₀
  have hloop := Triple.forM (E := fun (_ : HufError) b => GrownBy base ∅ b.2.heap ∧
      b.2.heap.Bounded) (f := fun pointer => Routine.within TreeBuild.nodes (Heap.free pointer))
    b₀.1.shadowTree (fun done b =>
      GrownBy base (slotsFrom b₀.1.shadowTree done.length) b.2.heap ∧ b.2.heap.Bounded) (by
    intro done pointer rest hslots
    have hslot : address b₀.1.shadowTree (some done.length) = pointer := by
      rw [address, hslots, Option.bind_some, List.getElem?_append_right (Nat.le_refl _),
        Nat.sub_self]
      rfl
    have hlength : (done ++ [pointer]).length = done.length + 1 := List.length_append
    have hcells : ∀ q ∈ slotsFrom b₀.1.shadowTree done.length,
        pointer = some q ∨ q ∈ slotsFrom b₀.1.shadowTree (done ++ [pointer]).length := by
      rintro q ⟨k, hk, hq⟩
      rcases Nat.eq_or_lt_of_le hk with rfl | hlt
      · exact .inl (hslot.symm.trans hq)
      · exact .inr ⟨k, hlength.le.trans hlt, hq⟩
    have hsub : slotsFrom b₀.1.shadowTree (done ++ [pointer]).length ⊆
        slotsFrom b₀.1.shadowTree done.length := by
      rintro q ⟨k, hk, hq⟩
      exact ⟨k, Nat.le_of_succ_le (hlength.ge.trans hk), hq⟩
    apply Triple.within
    rintro b ⟨hgrown, hbounded⟩
    have hfree : Endures (fun _ => False) (fun heap => heap = b.2.heap) (Heap.free pointer)
        fun _ heap => GrownBy base (slotsFrom b₀.1.shadowTree (done ++ [pointer]).length) heap ∧
          heap.Bounded := by
      apply Heap.free_endures
      · rintro _ rfl rfl
        refine ⟨hgrown.mono (fun q hq => (hcells q hq).resolve_left (by simp)) ?_, hbounded⟩
        exact fun q hq => hgrown.fresh q (hsub hq)
      · rintro _ p rfl rfl
        have hmem : p ∈ slotsFrom b₀.1.shadowTree done.length := ⟨_, Nat.le_refl _, hslot⟩
        refine ⟨hgrown.release hbase hmem ?_ hsub, ?_⟩
        · exact fun q hq => (hcells q hq).imp_left fun heq => (Option.some.inj heq).symm
        · intro q hq
          by_cases hqp : q = p
          · rw [hqp, Heap.nodes_put]
          · rw [Heap.nodes_put_of_ne _ _ hqp]
            exact hbounded q hq
    apply hfree.triple.mono
    · rintro _ ⟨⟩
      rfl
    · exact fun _ _ h => h
    · exact fun _ _ h => h.elim)
  apply hloop.mono
  · rintro _ ⟨rfl, h⟩
    exact ⟨h.grown, h.bounded⟩
  · rintro _ b ⟨hgrown, hbounded⟩
    refine ⟨hgrown.mono ?_ fun _ hp => hp.elim, hbounded⟩
    rintro p ⟨k, hk, hp⟩
    rw [address, Option.bind_some, List.getElem?_eq_none hk] at hp
    cases hp
  · exact fun _ _ h => h

/-! ## The whole construction -/

theorem slotsFrom_replicate (m n : ℕ) : slotsFrom (List.replicate m none) n = ∅ := by
  ext p
  apply iff_of_false _ (Set.notMem_empty p)
  rintro ⟨k, -, hk⟩
  rw [address_replicate] at hk
  cases hk

/-- In the beginning the slots are empty. -/
theorem filling_buildStart {s : HistogramTree} (h : Bare base ⟨s.tree, s.heap⟩) :
    Filling base hufAsciiCount (buildStart s) := by
  refine ⟨⟨?_, h.bounded⟩, fun k _ => address_replicate _ k⟩
  show GrownBy base (slotsFrom (List.replicate (hufAsciiCount * 2) none) 0) s.heap
  rw [slotsFrom_replicate]
  exact h.grown

/-- A construction that fails has released what it has allocated. -/
theorem hufTreeFromHistogram_bare (hbase : base.Bounded) :
    Triple (fun s : HistogramTree => Bare base ⟨s.tree, s.heap⟩) hufTreeFromHistogram
      (fun _ _ => True) fun _ s => Bare base ⟨s.tree, s.heap⟩ := by
  have hheap : Triple (fun s : HistogramTree => Bare base ⟨s.tree, s.heap⟩) hufTreeFromHistogram
      (fun _ _ => True) fun _ s => GrownBy base ∅ s.heap ∧ s.heap.Bounded := by
    apply Triple.get_bind
    intro s₀
    apply Triple.fix
    rintro s ⟨rfl, hs⟩
    apply Triple.withLocal (Q := fun _ _ => True)
    apply Triple.onFailure
    · apply ((mergeLoop_shelters _).weaken fun _ _ _ => trivial).strengthen
      rintro b ⟨hlocals, hb⟩
      have hstart : b = buildStart s := Prod.ext hlocals hb
      rw [hstart]
      exact filling_buildStart hs
    · exact fun _ => freeShadow_releases hbase
  apply (hheap.and (hufTreeFromHistogram_endures none).triple).mono
  · exact fun s hs => ⟨hs, hs.root⟩
  · exact fun _ _ _ => trivial
  · exact fun _ s h => ⟨h.2, h.1.1, h.1.2⟩

/-- The slots that have a node are those that the tree is made of. -/
theorem Renders.slotsFrom_eq {before : HistogramTree} {rates : List ℕ} {s : TreeBuild}
    (h : Renders before (Forest.grown rates).plan s) (hrates : Forest.Countable rates) {ps : List ℕ}
    (hps : ps.map some = (values (hufTree rates)).map fun m => address s.1.shadowTree (some m)) :
    slotsFrom s.1.shadowTree 0 = {p | p ∈ ps} := by
  rcases hrates.grown with ⟨hsound, hnode, -⟩
  ext p
  have hmem : p ∈ ps ↔ ∃ k ∈ values (hufTree rates), address s.1.shadowTree (some k) = some p := by
    rw [← List.mem_map_of_injective (Option.some_injective ℕ), hps, List.mem_map]
  show (∃ k, 0 ≤ k ∧ address s.1.shadowTree (some k) = some p) ↔ p ∈ ps
  rw [hmem]
  apply Iff.intro
  · rintro ⟨k, -, hk⟩
    refine ⟨k, hrates.mem_values.mpr ?_, hk⟩
    have hslot : (Forest.grown rates).plan.slot k ≠ none := by
      intro hnone
      rw [h.absent k hnone] at hk
      cases hk
    rw [Forest.slot_plan] at hslot
    split at hslot
    · rename_i hused
      rcases Nat.lt_or_ge k hufAsciiCount with hbyte | hle
      · rcases hused with ⟨hle, -⟩ | hparent
        · exact absurd hle (Nat.not_le.mpr hbyte)
        · exact .inl ((hrates.parent_iff hbyte).mp hparent)
      · refine .inr ⟨hle, ?_⟩
        by_contra hge
        have hlast : (Forest.grown rates).node ≤ k := by omega
        rcases hused with ⟨-, hlt⟩ | hparent
        · omega
        · exact hparent (hsound.parent_of_le hlast)
    · exact absurd rfl hslot
  · rintro ⟨k, -, hk⟩
    exact ⟨k, Nat.zero_le k, hk⟩

/-- A construction without failures leaves a tree that has all its nodes. -/
theorem Buildable.grows {s s' : HistogramTree} (h : Buildable s)
    (hbare : Bare base ⟨s.tree, s.heap⟩) (hrun : hufTreeFromHistogram s = .ok (.ok (), s')) :
    Grows base ⟨s'.tree, s'.heap⟩ := by
  have hcard := Forest.card_counted_le s.histogram.frequencies
  rw [Forest.counted] at hcard
  have hroom : hufAsciiCount + (Forest.seed s.histogram.frequencies).node = hufHistogramLen := rfl
  have hfuel : (Forest.seed s.histogram.frequencies).live.card < hufAsciiCount * 2 + 1 := by omega
  have hloop := mergeLoop_eq (renders_seed h.length_leaves h.start h.allocations)
    (Forest.sound_seed h.rates.length h.rates.above) h.rates.total h.rates.live (by omega) hfuel
  have hfilling := filling_buildStart hbare
  have hshelters := mergeLoop_shelters (hufAsciiCount * 2 + 1) (buildStart s) hfilling
  rw [hufTreeFromHistogram, Routine.get_bind_apply] at hrun
  rcases hloop with ⟨hfault, -⟩ | ⟨-, ⟨locals, t⟩, hok, hrenders, hroot⟩
  · cases (Routine.withLocal_of_fault (Routine.onFailure_of_fault hfault)).symm.trans hrun
  · cases (Routine.withLocal_of_ok (Routine.onFailure_of_ok hok)).symm.trans hrun
    have hsheltering := hshelters.1 () _ hok
    rcases h.rates.grown with ⟨hsound, hnode, -⟩
    have hpos := h.rates.live.card_pos
    have hlast : (Forest.grown s.histogram.frequencies).node - 1 <
        (Forest.grown s.histogram.frequencies).node := by omega
    have hslot : (Forest.grown s.histogram.frequencies).plan.slot
        ((Forest.grown s.histogram.frequencies).node - 1) ≠ none := by
      rw [Forest.slot_plan, if_pos (.inl ⟨by omega, hlast⟩)]
      exact Option.some_ne_none _
    rcases hrenders.root_holds h.rates with ⟨ps, hat, hps⟩
    rcases hrenders.holds hsound hlast hslot h.rates.values_nodup with ⟨ps', hat', hnodup, hlt⟩
    rcases hat.unique hat' with ⟨-, rfl⟩
    have hgrown : GrownBy base {p | p ∈ ps} s'.heap :=
      hrenders.slotsFrom_eq h.rates hps ▸ hsheltering.grown
    exact ⟨⟨_, ps, hroot ▸ hat, hnodup, hlt, hgrown⟩, hsheltering.bounded⟩

end

end LibHuffman
