/-
# The iterations of the construction

Every iteration of the loop of `huf_tree_from_histogram` begins in a forest with one
live slot less. There is always a live slot between the start and the next free slot,
so the loop that skips rates of zero ends there; and there are as many iterations as
bytes were counted, so the free slots suffice.
-/

import LibHuffman.Trees.Shape

namespace LibHuffman

open Foundation Allocating Routine

theorem mergeCond_eq (b : TreeBuild) :
    mergeCond () b = .ok (.ok (decide (b.1.start < hufAsciiCount * 2)), b) := rfl

theorem mergeCond_of_lt {b : TreeBuild} (h : b.1.start < hufAsciiCount * 2) :
    mergeCond () b = .ok (.ok true, b) := by
  rw [mergeCond_eq, decide_eq_true h]

/-- The construction is at the beginning of its iteration `t`, of `n`. -/
structure Midway (before : HistogramTree) (bytes : Finset ℕ) (total n t : ℕ) (forest : Forest)
    (b : TreeBuild) : Prop where
  renders : Renders before forest.plan b
  sound : forest.Sound bytes total
  node : forest.node = hufAsciiCount + t
  card : forest.live.card + t = n
  lt : t < n

section

variable {before : HistogramTree} {bytes : Finset ℕ} {total n t : ℕ} {forest : Forest}
  {b : TreeBuild}

theorem Midway.live (h : Midway before bytes total n t forest b) : forest.live.Nonempty := by
  have hcard := h.card
  have hlt := h.lt
  exact Finset.card_pos.mp (by omega)

theorem Midway.frequencies (h : Midway before bytes total n t forest b) :
    b.2.histogram.frequencies = forest.rates := by
  rw [h.renders.histogram]
  rfl

/-- The start of the scan is not behind the first live slot. -/
theorem Midway.skip_eq (h : Midway before bytes total n t forest b) :
    ∃ start, skipZeroRates b.2.histogram.frequencies (b.2.histogram.frequencies.length + 1)
        b.1.start = .ok start ∧
      start < forest.node ∧ ∀ k < start, forest.rate k = 0 := by
  obtain ⟨k, hk⟩ := h.live
  have hlive := Forest.mem_live.mp hk
  have hrates : forest.rates.length = hufHistogramLen := h.sound.length_rates
  have hle : b.1.start ≤ k := by
    by_contra hlate
    exact hlive.2 (h.renders.start k (Nat.not_le.mp hlate))
  have hlen : k < forest.rates.length := by
    by_contra hlong
    exact hlive.2 (List.getD_eq_default _ _ (Nat.not_lt.mp hlong))
  have hfuel : k - b.1.start < forest.rates.length + 1 := by omega
  obtain ⟨start, hskip, hstart, hzero⟩ := skipZeroRates_eq hlive.2 hle hfuel h.renders.start
  exact ⟨start, by rw [h.frequencies, hskip], by omega, hzero⟩

theorem Midway.start_lt (h : Midway before bytes total n t forest b)
    (hn : n ≤ hufAsciiCount) : b.1.start < hufAsciiCount * 2 := by
  obtain ⟨k, hk⟩ := h.live
  have hlive := Forest.mem_live.mp hk
  have hnode := h.node
  have hlt := h.lt
  have hle : b.1.start ≤ k := by
    by_contra hlate
    exact hlive.2 (h.renders.start k (Nat.not_le.mp hlate))
  omega

/-- An iteration joins the slots that the scan finds. The last one leaves the loop. -/
theorem Midway.merge_eq (h : Midway before bytes total n t forest b) (hn : n ≤ hufAsciiCount)
    (htotal : total < 2 ^ 63) :
    ∃ i second b', forest.Chosen i second ∧ forest.next = some (i, second) ∧
      mergeMinimum b = .ok (.ok (if second = none then .leave () else .next ()), b') ∧
      Renders before (forest.join i second).plan b' ∧
      (forest.join i second).Sound bytes total ∧
      (second = none ↔ t + 1 = n) ∧
      (second ≠ none → Midway before bytes total n (t + 1) (forest.join i second) b') := by
  have hnode := h.node
  have hcard := h.card
  have hlt := h.lt
  have hroom : forest.node < hufHistogramLen := by
    have hlen : hufHistogramLen = hufAsciiCount * 2 := rfl
    omega
  obtain ⟨i, second, hchosen, hnext, hstep⟩ :=
    mergeMinimum_eq h.renders h.sound (by omega) hroom h.live
  rcases hstep with ⟨-, -, hlarge⟩ | ⟨-, b', hrun, hrenders, -⟩
  · omega
  · have hsound := h.sound.join hchosen hroom
    have hjoin := hchosen.card_join (h.sound.length_rates ▸ hroom)
    have hlast : second = none ↔ t + 1 = n := by
      cases second with
      | none =>
          have := hchosen.card_eq_one
          exact ⟨fun _ => by omega, fun _ => rfl⟩
      | some j =>
          have := hchosen.one_lt_card
          exact ⟨fun h => (nomatch h), fun h => by omega⟩
    refine ⟨i, second, b', hchosen, hnext, hrun, hrenders, hsound, hlast, fun hsecond => ?_⟩
    cases second with
    | none => exact absurd rfl hsecond
    | some j =>
        have := hchosen.one_lt_card
        exact ⟨hrenders, hsound, by rw [Forest.node_join]; omega, by omega, by omega⟩

end

/-! ## Runs of iterations -/

/-- What the construction is given: the counts of fewer than 2^63 bytes, and an array
for the leaves. -/
structure Mergeable (s : HistogramTree) : Prop where
  histogram : ByteHistogram s.histogram
  total : (Forest.seed s.histogram.frequencies).pool.weight < 2 ^ 63
  leaves : s.tree.leaves.length = hufHistogramLen

section

variable {s : HistogramTree} {t : ℕ} {b : TreeBuild}

/-- An iteration of the construction begins in a state like that of the construction
without failures. -/
def Reaches (s : HistogramTree) (t : ℕ) (b : TreeBuild) : Prop :=
  Sheltered s.tree.root b ∧ Spared (allocations s) (allocations b) ∧
    ∃ forest, Midway (schedule [] s) (Forest.counted s.histogram.frequencies)
      (Forest.seed s.histogram.frequencies).pool.weight
      (Forest.counted s.histogram.frequencies).card t forest (schedule [] b)

theorem Mergeable.reaches (h : Mergeable s) : Reaches s 0 (buildStart s) := by
  refine ⟨sheltered_replicate rfl rfl, Spared.refl _, Forest.seed s.histogram.frequencies, ?_⟩
  constructor
  case renders => exact renders_seed (s := schedule [] s) h.leaves h.histogram.start rfl
  case sound => exact Forest.sound_seed h.histogram.rates.length h.histogram.rates.above
  case node => rfl
  case card => rfl
  case lt => exact h.histogram.rates.live.card_pos

/-- One iteration. -/
theorem Reaches.next (h : Reaches s t b) (hs : Mergeable s) {b' : TreeBuild}
    (hrun : mergeMinimum b = .ok (.ok (.next ()), b')) : Reaches s (t + 1) b' := by
  rcases h with ⟨hsheltered, hspared, forest, hmidway⟩
  have hcard := Forest.card_counted_le s.histogram.frequencies
  obtain ⟨hsame, hsheltered', hspared'⟩ := Shelters.mergeMinimum.unfailing hsheltered hrun
  obtain ⟨i, second, b'', -, -, hmerge, -, -, -, hnext⟩ := hmidway.merge_eq hcard hs.total
  cases second with
  | none => cases hsame.symm.trans hmerge
  | some j =>
      cases hsame.symm.trans hmerge
      exact ⟨hsheltered', hspared.trans hspared', _, hnext (Option.some_ne_none j)⟩

/-- Every iteration of a construction. -/
theorem Mergeable.iterates (h : Mergeable s)
    (hrun : Iterates mergeCond mergeBody () (buildStart s) t () b) : Reaches s t b := by
  generalize hunit : () = u at hrun
  induction hrun with
  | start => exact h.reaches
  | next _ hcond hbody ih =>
      rw [mergeCond_eq, Except.ok.injEq, Prod.mk.injEq] at hcond
      exact (ih rfl).next h (hcond.2 ▸ hbody)

/-- Where no allocation fails, there are as many iterations as bytes were counted; the
last one leaves the loop. -/
theorem Mergeable.exists_iterates (h : Mergeable s) (halloc : false ∉ s.heap.allocations)
    (ht : t < (Forest.counted s.histogram.frequencies).card) :
    ∃ b, Iterates mergeCond mergeBody () (buildStart s) t () b := by
  have hcard := Forest.card_counted_le s.histogram.frequencies
  induction t with
  | zero => exact ⟨_, .start⟩
  | succ t ih =>
      obtain ⟨b, hrun⟩ := ih (by omega)
      obtain ⟨hsheltered, hspared, forest, hmidway⟩ := h.iterates hrun
      obtain ⟨i, second, b', -, -, hmerge, -, -, hlast, -⟩ := hmidway.merge_eq hcard h.total
      have hsecond : second ≠ none := fun hnone => by
        have := hlast.mp hnone
        omega
      rw [if_neg hsecond] at hmerge
      obtain ⟨b'', hbody, -⟩ :=
        Shelters.mergeMinimum.succeeding hsheltered (hspared.not_mem halloc) hmerge
      exact ⟨b'', hrun.next (mergeCond_of_lt (hmidway.start_lt hcard)) hbody⟩

end

/-! ## Bounds -/

/-- What holds at the beginning of iteration `t` for `total` counted bytes. The arrays
`rates` and `shadow_tree` have a place for every slot, and an access behind their end is
a fault. -/
structure InBounds (s : HistogramTree) (total t : ℕ) (b : TreeBuild) : Prop where
  rates : b.2.histogram.frequencies.length = hufHistogramLen
  shadow : b.1.shadowTree.length = hufHistogramLen
  node : b.1.node = hufAsciiCount + t
  node_lt : b.1.node < hufHistogramLen
  /-- The loop that skips rates of zero ends before the next free slot, and the two
  slots that the scan finds are before it too. -/
  scan : ∃ start m, skipZeroRates b.2.histogram.frequencies
      (b.2.histogram.frequencies.length + 1) b.1.start = .ok start ∧ start < b.1.node ∧
    findMinimum b.2.histogram.frequencies start b.1.node = .ok m ∧
    ∀ k, m.index1 = some k ∨ m.index2 = some k → k < b.1.node
  /-- Nothing is written to the leaves behind those of the bytes. -/
  leaves : ∀ k, hufAsciiCount ≤ k → b.2.tree.leaves[k]? = s.tree.leaves[k]?
  weight : ∑ k ∈ Finset.range b.1.node, b.2.histogram.frequencies.getD k 0 = total
  /-- No access and no sum of the iteration is a fault. -/
  merge : ∃ step b', mergeMinimum b = .ok (.ok step, b')

section

variable {before : HistogramTree} {forest : Forest} {t : ℕ} {b : TreeBuild}

/-- The leaves behind those of the bytes stay as they are. -/
theorem Renders.leaves_above (h : Renders before forest.plan b)
    (hleaves : before.tree.leaves.length = hufHistogramLen) {k : ℕ} (hk : hufAsciiCount ≤ k) :
    b.2.tree.leaves[k]? = before.tree.leaves[k]? := by
  by_cases hlt : k < hufHistogramLen
  · have hpublished : forest.plan.published k = false := by
      rw [Forest.published_plan, decide_eq_false_iff_not]
      exact fun hbyte => absurd hbyte.1 (Nat.not_lt.mpr hk)
    rw [h.leaves k hlt, hpublished]
    rfl
  · rw [List.getElem?_eq_none (by rw [h.length_leaves]; omega),
      List.getElem?_eq_none (by omega)]

variable {s : HistogramTree}

theorem Reaches.inBounds (h : Reaches s t b) (hs : Mergeable s)
    (halloc : false ∉ s.heap.allocations) :
    t < (Forest.counted s.histogram.frequencies).card ∧
      InBounds s (Forest.seed s.histogram.frequencies).pool.weight t b := by
  rcases h with ⟨hsheltered, hspared, forest, hmidway⟩
  have hcard := Forest.card_counted_le s.histogram.frequencies
  have hlen : hufHistogramLen = hufAsciiCount * 2 := rfl
  have hnode : b.1.node = forest.node := hmidway.renders.node
  have hslots := hmidway.node
  have hlt := hmidway.lt
  have hrates : b.2.histogram.frequencies = forest.rates := hmidway.frequencies
  obtain ⟨i, second, b', hchosen, hnext, hmerge, -⟩ := hmidway.merge_eq hcard hs.total
  refine ⟨hlt, ?_⟩
  constructor
  case rates => exact (congrArg List.length hrates).trans hmidway.sound.length_rates
  case shadow => exact hmidway.renders.length_shadow
  case node => rw [hnode, hslots]
  case node_lt => omega
  case scan =>
    obtain ⟨start, hskip, hstart, hzero⟩ := hmidway.skip_eq
    obtain ⟨hfirst, hsecond⟩ := Forest.minimum_of_next hnext
    have hroom : forest.node ≤ forest.rates.length := by
      rw [hmidway.sound.length_rates]
      omega
    refine ⟨start, minimum (signedRate forest.rates) forest.node, hskip, by omega, ?_, ?_⟩
    · rw [hrates, hnode]
      exact findMinimum_eq hzero (Nat.le_of_lt hstart) hroom
    · intro k hk
      rw [hfirst, hsecond] at hk
      rw [hnode]
      rcases hk with hk | hk
      · cases hk
        exact hchosen.lt
      · exact hchosen.second_lt k hk
  case leaves => exact fun k hk => hmidway.renders.leaves_above hs.leaves hk
  case weight =>
    rw [← hmidway.sound.weight, Forest.weight_pool, Forest.live, Finset.sum_filter_ne_zero, hnode,
      hrates]
    rfl
  case merge =>
    obtain ⟨b'', hrun, -⟩ :=
      Shelters.mergeMinimum.succeeding hsheltered (hspared.not_mem halloc) hmerge
    exact ⟨_, b'', hrun⟩

/-- Where no allocation fails the construction ends with the iteration for the last of
the counted bytes. -/
theorem Mergeable.run_eq (h : Mergeable s) (halloc : false ∉ s.heap.allocations) :
    ∃ b locals s', Iterates mergeCond mergeBody () (buildStart s)
        ((Forest.counted s.histogram.frequencies).card - 1) () b ∧
      mergeCond () b = .ok (.ok true, b) ∧
      mergeBody () b = .ok (.ok (.leave ()), (locals, s')) ∧
      hufTreeFromHistogram s = .ok (.ok (), s') ∧
      ∀ k, hufAsciiCount ≤ k → s'.tree.leaves[k]? = s.tree.leaves[k]? := by
  have hcard := Forest.card_counted_le s.histogram.frequencies
  have hpos := h.histogram.rates.live.card_pos
  obtain ⟨b, hrun⟩ := h.exists_iterates halloc (Nat.sub_lt hpos Nat.one_pos)
  obtain ⟨hsheltered, hspared, forest, hmidway⟩ := h.iterates hrun
  obtain ⟨i, second, b', -, -, hmerge, hrenders, -, hlast, -⟩ := hmidway.merge_eq hcard h.total
  rw [if_pos (hlast.mpr (by omega))] at hmerge
  obtain ⟨⟨locals, s'⟩, hbody, rfl⟩ :=
    Shelters.mergeMinimum.succeeding hsheltered (hspared.not_mem halloc) hmerge
  have hcond : mergeCond () b = .ok (.ok true, b) := mergeCond_of_lt (hmidway.start_lt hcard)
  have hfuel : (Forest.counted s.histogram.frequencies).card - 1 < hufAsciiCount * 2 + 1 := by
    omega
  have hloop : Routine.whileLoop .endless mergeCond mergeBody (hufAsciiCount * 2 + 1) ()
      (buildStart s) = .ok (.ok (), (locals, s')) := hrun.whileLoop_leave hcond hbody hfuel
  refine ⟨b, locals, s', hrun, hcond, hbody, ?_, fun k hk => hrenders.leaves_above h.leaves hk⟩
  rw [hufTreeFromHistogram, Routine.get_bind_apply]
  exact Routine.withLocal_of_ok (Routine.onFailure_of_ok hloop)

/-- Counting fewer than 2^63 bytes, at least one, leaves what a tree is built from. -/
theorem mergeable_of_populate {block : List UInt8} (hne : block ≠ [])
    (hlen : block.length < 2 ^ 63)
    (hcount : hufHistogramPopulate block emptyHistogram = .ok (.ok (), s.histogram))
    (hleaves : s.tree.leaves.length = hufHistogramLen) :
    Mergeable s ∧ s.histogram.frequencies = byteRates block := by
  have hlt : block.length < 2 ^ 64 := by omega
  rw [hufHistogramPopulate_eq hlt, Except.ok.injEq, Prod.mk.injEq] at hcount
  have hhistogram := hcount.2
  have hrates : s.histogram.frequencies = byteRates block := by
    rw [← hhistogram]
    rfl
  refine ⟨⟨hhistogram ▸ byteHistogram_blockHistogram hne hlt, ?_, hleaves⟩, hrates⟩
  rw [hrates, weight_byteRates]
  exact hlen

/-- The construction from the counts of fewer than 2^63 bytes, at least one, ends with as
many iterations as there are distinct bytes; it stays in the bounds of its arrays, and the
rates below the next free slot always sum to the number of bytes. -/
theorem hufTreeFromHistogram_bounded {block : List UInt8} (hne : block ≠ [])
    (hlen : block.length < 2 ^ 63)
    (hcount : hufHistogramPopulate block emptyHistogram = .ok (.ok (), s.histogram))
    (hleaves : s.tree.leaves.length = hufHistogramLen) (halloc : false ∉ s.heap.allocations) :
    (∃ b locals s', Iterates mergeCond mergeBody () (buildStart s)
        (block.toFinset.card - 1) () b ∧
      mergeCond () b = .ok (.ok true, b) ∧
      mergeBody () b = .ok (.ok (.leave ()), (locals, s')) ∧
      hufTreeFromHistogram s = .ok (.ok (), s') ∧
      ∀ k, hufAsciiCount ≤ k → s'.tree.leaves[k]? = s.tree.leaves[k]?) ∧
    ∀ t b, Iterates mergeCond mergeBody () (buildStart s) t () b →
      t < block.toFinset.card ∧ InBounds s block.length t b := by
  obtain ⟨hs, hrates⟩ := mergeable_of_populate hne hlen hcount hleaves
  have hcard : (Forest.counted s.histogram.frequencies).card = block.toFinset.card := by
    rw [hrates, card_counted_byteRates]
  have hweight : (Forest.seed s.histogram.frequencies).pool.weight = block.length := by
    rw [hrates, weight_byteRates]
  have hrun := hs.run_eq halloc
  rw [hcard] at hrun
  refine ⟨hrun, fun t b hiterates => ?_⟩
  have hbounds := (hs.iterates hiterates).inBounds hs halloc
  rwa [hcard, hweight] at hbounds

end

/-- Two distinct bytes take two iterations. -/
theorem hufTreeFromHistogram_bounded_two :
    let s : HistogramTree :=
      ⟨⟨noLeaves, none⟩, blockHistogram [1, 2, 2], ⟨fun _ => none, 0, []⟩⟩
    (∃ b locals s', Iterates mergeCond mergeBody () (buildStart s) 1 () b ∧
      mergeBody () b = .ok (.ok (.leave ()), (locals, s')) ∧
      hufTreeFromHistogram s = .ok (.ok (), s')) ∧
    ∀ t b, Iterates mergeCond mergeBody () (buildStart s) t () b → t < 2 ∧ InBounds s 3 t b := by
  intro s
  have hcount : hufHistogramPopulate [1, 2, 2] emptyHistogram = .ok (.ok (), s.histogram) :=
    hufHistogramPopulate_eq (by decide)
  obtain ⟨⟨b, locals, s', hiterates, -, hbody, hrun, -⟩, hbounds⟩ :=
    hufTreeFromHistogram_bounded (by decide) (by decide) hcount (List.length_replicate ..)
      List.not_mem_nil
  exact ⟨⟨b, locals, s', hiterates, hbody, hrun⟩, hbounds⟩

end LibHuffman
