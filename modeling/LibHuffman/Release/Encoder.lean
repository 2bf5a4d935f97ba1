/-
# The nodes of an encoder

An encoder builds a tree for every block and resets it before the next one. A construction
that fails has released its own nodes; where something else fails, the nodes hang at the root
and are released with the encoder: `huf_encode` leaves the nodes of its caller as they were.
-/

import LibHuffman.Allocation.Encoding
import LibHuffman.Codec.RoundTrip
import LibHuffman.Encode.CodeTable
import LibHuffman.Release.Construction

namespace LibHuffman

open Foundation Allocating EncodeRun EncodeCore

variable {ρ ω : Type} {base : Heap}

/-! ## What holds of the objects -/

/-- The nodes of the tree are the cells. -/
def EncodeCore.Grows (base : Heap) (c : EncodeCore ρ ω) : Prop := LibHuffman.Grows base c.tree

/-- Between two blocks: the tree and the histogram are empty, and there are no cells. -/
structure EncodeCore.Idle (base : Heap) (config : HufConfig ρ ω) (histogram : HufHistogram)
    (c : EncodeCore ρ ω) : Prop extends Fresh config histogram c where
  bare : Bare base c.tree

/-- Within a block: the nodes of its tree are the cells. -/
structure EncodeCore.Busy (base : Heap) (config : HufConfig ρ ω) (c : EncodeCore ρ ω) : Prop
    extends Coding config c where
  grows : LibHuffman.Grows base c.tree

theorem EncodeCore.Idle.grows {config : HufConfig ρ ω} {histogram : HufHistogram}
    {c : EncodeCore ρ ω} (h : Idle base config histogram c) : c.Grows base :=
  h.bare.grows

theorem EncodeCore.Busy.keeps (config : HufConfig ρ ω) : Keeps (Busy base config) where
  allocations c outcomes h :=
    ⟨(Coding.keeps config).allocations c outcomes h.toCoding, h.grows.of_nodes rfl rfl⟩
  mapping c m h hlength hsymbols :=
    ⟨(Coding.keeps config).mapping c m h.toCoding hlength hsymbols, h.grows⟩

/-- What holds of a routine with both pairs of conditions. -/
theorem EncodeRun.onCore_and {α : Type} {P P' I I' : EncodeCore ρ ω → Prop}
    {Q Q' : α → EncodeCore ρ ω → Prop} {x : CRoutine (EncodeRun ρ ω) α}
    (h : Triple (OnCore P) x (fun a => OnCore (Q a)) fun _ => OnCore I)
    (h' : Triple (OnCore P') x (fun a => OnCore (Q' a)) fun _ => OnCore I') :
    Triple (OnCore fun c => P c ∧ P' c) x (fun a => OnCore fun c => Q a c ∧ Q' a c)
      fun _ => OnCore fun c => I c ∧ I' c := by
  have hboth : ∀ {R R' : EncodeCore ρ ω → Prop} (s : EncodeRun ρ ω), OnCore R s ∧ OnCore R' s →
      OnCore (fun c => R c ∧ R' c) s := by
    rintro R R' s ⟨⟨e, rfl, he⟩, ⟨e', hrun, he'⟩⟩
    cases EncodeState.run_injective hrun
    exact ⟨e, rfl, he, he'⟩
  apply (h.and h').mono
  · exact fun s hs => ⟨onCore_mono (fun _ hc => hc.1) hs, onCore_mono (fun _ hc => hc.2) hs⟩
  · exact fun a s hs => hboth s hs
  · exact fun code s hs => hboth s hs

/-! ## One block -/

section

variable {config : HufConfig ρ ω} {histogram : HufHistogram} {block : List UInt8}

theorem idle_config_bind {α : Type} {f : HufConfig ρ ω → CRoutine (EncodeRun ρ ω) α}
    {Q : α → EncodeRun ρ ω → Prop} {E : HufError → EncodeRun ρ ω → Prop}
    (hf : Triple (OnCore (Idle base config histogram)) (f config) Q E) :
    Triple (OnCore (Idle base config histogram))
      (Routine.within EncodeRun.config Routine.get >>= f) Q E := by
  rintro _ ⟨e, rfl, he⟩
  have hconfig : e.config = config := he.config
  rw [show (Routine.within EncodeRun.config Routine.get >>= f) e.run = f e.config e.run from rfl,
    hconfig]
  exact hf _ ⟨e, rfl, he⟩

theorem tree_get {P : EncodeCore ρ ω → Prop} {E : HufError → EncodeRun ρ ω → Prop} :
    Triple (OnCore P) (Routine.within EncodeRun.huffmanTree Routine.get) (fun _ => OnCore P) E := by
  rintro _ ⟨e, rfl, he⟩
  refine ⟨fun _ _ hrun => ?_, fun _ _ hrun => by cases hrun⟩
  cases hrun
  exact ⟨e, rfl, he⟩

/-- Counting a block. -/
theorem populate_idle (hlen : block.length < 2 ^ 64) :
    Triple (OnCore (Idle base config emptyHistogram))
      (Routine.within EncodeRun.histogram (hufHistogramPopulate block))
      (fun _ => OnCore (Idle base config (blockHistogram block)))
      fun _ => OnCore (EncodeCore.Grows base) := by
  apply Endures.triple
  apply histogram_endures
  · intro c code h hc hrun
    exact hc.grows
  · intro c _ h hc hrun
    rw [hc.histogram, hufHistogramPopulate_eq hlen] at hrun
    cases hrun
    exact ⟨⟨hc.config, hc.tree, rfl, hc.length_symbols⟩, hc.bare⟩

/-- The nodes of a construction. -/
theorem construct_grows (hbase : base.Bounded) (hne : block ≠ []) (hlen : block.length < 2 ^ 64) :
    Triple (OnCore (Idle base config (blockHistogram block)))
      (Routine.within EncodeRun.histogramTree hufTreeFromHistogram)
      (fun _ => OnCore (EncodeCore.Grows base)) fun _ => OnCore (EncodeCore.Grows base) := by
  apply Triple.within
  rintro _ ⟨e, rfl, he⟩
  have hstore : ∀ t : HistogramTree, LibHuffman.Grows base ⟨t.tree, t.heap⟩ →
      OnCore (EncodeCore.Grows base) (EncodeRun.histogramTree.store t e.run) := fun t ht =>
    ⟨{ e with tree := ⟨t.tree, t.heap⟩, histogram := t.histogram }, rfl, ht⟩
  rintro t ⟨⟩
  apply And.intro
  · intro _ t' hrun
    apply hstore
    have hsame := (hufTreeFromHistogram_endures none).unfailing (congrArg HufTree.root he.tree)
      hrun
    have hbuildable : Buildable ⟨e.tree.tree, e.histogram, schedule [] e.tree.heap⟩ := by
      rw [show e.histogram = blockHistogram block from he.histogram]
      exact ⟨countable_byteRates hne hlen, fun k hk => byteRates_below_least hk,
        congrArg HufTree.leaves he.tree, rfl⟩
    have hgrows := hbuildable.grows ⟨he.bare.root, he.bare.grown.of_nodes rfl rfl, he.bare.bounded⟩
      hsame.1
    exact hgrows.of_nodes rfl rfl
  · intro code t' hrun
    apply hstore
    exact ((hufTreeFromHistogram_bare hbase _ he.bare).2 code t' hrun).grows

theorem construct_busy (hbase : base.Bounded) (hne : block ≠ []) (hlen : block.length < 2 ^ 64) :
    Triple (OnCore (Idle base config (blockHistogram block)))
      (Routine.within EncodeRun.histogramTree hufTreeFromHistogram)
      (fun _ => OnCore (Busy base config)) fun _ => OnCore (EncodeCore.Grows base) := by
  apply (onCore_and (construct_endures hne hlen).triple (construct_grows hbase hne hlen)).mono
  · exact fun _ hs => onCore_mono (fun c hc => ⟨hc.toFresh, hc⟩) hs
  · exact fun _ _ hs => onCore_mono (fun c hc => ⟨hc.1, hc.2⟩) hs
  · exact fun _ _ hs => onCore_mono (fun c hc => hc.2) hs

theorem resetTree_grows (hbase : base.Bounded) :
    Triple (OnCore (Busy base config)) (Routine.within EncodeRun.huffmanTree hufTreeReset)
      (fun _ => OnCore fun c => Emptied config c ∧ Bare base c.tree)
      fun _ => OnCore (EncodeCore.Grows base) := by
  have htree : Triple (OnCore (EncodeCore.Grows base))
      (Routine.within (EncodeRun.huffmanTree (ρ := ρ) (ω := ω)) hufTreeReset)
      (fun _ => OnCore fun c => Bare base c.tree) fun _ => OnCore (EncodeCore.Grows base) := by
    apply Triple.within
    rintro _ ⟨e, rfl, he⟩
    apply (hufTreeReset_grows hbase).mono
    · rintro t ⟨⟩
      exact he
    · exact fun _ t ht => ⟨{ e with tree := t }, rfl, ht⟩
    · exact fun _ t ht => ⟨{ e with tree := t }, rfl, ht⟩
  apply (onCore_and resetTree_endures.triple htree).mono
  · exact fun _ hs => onCore_mono (fun c hc => ⟨hc.toCoding, hc.grows⟩) hs
  · exact fun _ _ hs => hs
  · exact fun _ _ hs => onCore_mono (fun _ hc => hc.2) hs

theorem resetHistogram_idle :
    Triple (OnCore fun c => Emptied config c ∧ Bare base c.tree)
      (Routine.within EncodeRun.histogram hufHistogramReset)
      (fun _ => OnCore (Idle base config emptyHistogram))
      fun _ => OnCore (EncodeCore.Grows (ρ := ρ) (ω := ω) base) := by
  have hbare : Endures (OnCore (EncodeCore.Grows base)) (OnCore fun c => Bare base c.tree)
      (Routine.within EncodeRun.histogram hufHistogramReset)
      fun _ => OnCore fun (c : EncodeCore ρ ω) => Bare base c.tree :=
    histogram_endures (fun _ _ _ hc _ => hc.grows) fun _ _ _ hc _ => hc
  apply (onCore_and resetHistogram_endures.triple hbare.triple).mono
  · exact fun _ hs => hs
  · exact fun _ _ hs => onCore_mono (fun c hc => ⟨hc.1, hc.2⟩) hs
  · exact fun _ _ hs => onCore_mono (fun _ hc => hc.2) hs

theorem resetMapping_idle :
    Triple (OnCore (Idle base config emptyHistogram))
      (Routine.within EncodeRun.mapping hufSymbolMappingReset)
      (fun _ => OnCore (Idle base config emptyHistogram))
      fun _ => OnCore (EncodeCore.Grows (ρ := ρ) (ω := ω) base) := by
  have hbare : Endures (OnCore (EncodeCore.Grows base)) (OnCore fun c => Bare base c.tree)
      (Routine.within EncodeRun.mapping hufSymbolMappingReset)
      fun _ => OnCore fun (c : EncodeCore ρ ω) => Bare base c.tree :=
    mapping_endures (fun _ _ _ hc _ => hc.grows) fun _ _ _ hc _ => hc
  apply (onCore_and resetMapping_endures.triple hbare.triple).mono
  · exact fun _ hs => onCore_mono (fun c hc => ⟨hc.toFresh, hc.bare⟩) hs
  · exact fun _ _ hs => onCore_mono (fun c hc => ⟨hc.1, hc.2⟩) hs
  · exact fun _ _ hs => onCore_mono (fun _ hc => hc.2) hs

/-- Where the loop of the encoder is between two blocks. -/
def EncodeCore.AfterBlock (base : Heap) (config : HufConfig ρ ω) (l : EncodeLocals)
    (c : EncodeCore ρ ω) : Prop :=
  if l.leftToRead = 0 then c.Grows base else Idle base config emptyHistogram c

theorem EncodeCore.AfterBlock.grows {l : EncodeLocals} {c : EncodeCore ρ ω}
    (h : AfterBlock base config l c) : c.Grows base := by
  rw [AfterBlock] at h
  split at h
  · exact h
  · exact Idle.grows h

/-- A block releases the nodes that it has allocated, unless it is the last one. -/
theorem encodeNextBlock_grows (hbase : base.Bounded) (l : EncodeLocals)
    (hlt : l.leftToRead < 2 ^ 64) (hpos : l.leftToRead ≠ 0) (hblocksize : config.blocksize ≠ 0) :
    Triple (OnCore (Idle base config emptyHistogram)) (encodeNextBlock l)
      (fun step s => match step with
        | .next l' => l'.leftToRead ≤ l.leftToRead ∧ OnCore (AfterBlock base config l') s
        | .leave _ => False) fun _ => OnCore (EncodeCore.Grows base) := by
  apply idle_config_bind
  dsimp only
  have hneed : (if l.leftToRead < config.blocksize then l.leftToRead else config.blocksize) ≠ 0 ∧
      (if l.leftToRead < config.blocksize then l.leftToRead else config.blocksize) ≤
        l.leftToRead := by
    split <;> omega
  generalize (if l.leftToRead < config.blocksize then l.leftToRead else config.blocksize) =
    needToRead at hneed
  rcases hneed with ⟨hne, hle⟩
  apply Triple.demand_bind
  intro dest hdest
  have hread := (reader_endures (ω := ω) (P := Idle base config emptyHistogram)
    (hufBufioRead dest) fun _ hc => hc.grows).returning
      (V := fun block => block.length = needToRead) (by
    intro s block s' hrun
    rcases Routine.within_eq_ok hrun with ⟨b, b', -, hrun, -⟩
    rw [length_hufBufioRead hrun, length_slice hdest])
  apply hread.triple.bind
  intro block
  apply Triple.assume
  rintro rfl
  apply Triple.demand_bind
  intro buf _
  apply (populate_idle (by omega)).bind
  intro _
  apply (construct_busy hbase (fun h => hne (by rw [h]; rfl)) (by omega)).bind
  intro _
  have hbusy : ∀ c : EncodeCore ρ ω, Busy base config c → c.Grows base := fun _ hc => hc.grows
  apply ((hufCreateCharCoding_endures (Busy.keeps config)).mono (fun _ hs => hs)
    (fun _ hs => onCore_mono hbusy hs) fun _ _ hs => hs).triple.bind
  intro _
  apply tree_get.bind
  intro t
  apply Triple.demand_bind
  rintro ⟨treeHead, treeLength⟩ _
  dsimp only
  apply (writer_endures _ hbusy).triple.bind
  intro _
  apply (writer_endures _ hbusy).triple.bind
  intro _
  apply Triple.demand_bind
  intro words _
  apply (writer_endures _ hbusy).triple.bind
  intro _
  apply (bitWriter_endures _ hbusy).triple.bind
  intro _
  apply (hufEncodeBlock_endures block hbusy).triple.bind
  intro _
  have hleft : sizeSub l.leftToRead block.length ≤ l.leftToRead := by
    rw [sizeSub_of_le hle]
    omega
  apply Triple.ite
  · intro hmore
    apply (resetTree_grows hbase).bind
    intro _
    apply resetHistogram_idle.bind
    intro _
    apply resetMapping_idle.bind
    intro _
    apply Triple.pure
    intro s hs
    refine ⟨hleft, onCore_mono (fun c hc => ?_) hs⟩
    rw [AfterBlock, if_neg hmore]
    exact hc
  · intro hdone
    apply Triple.pure
    intro s hs
    refine ⟨hleft, onCore_mono (fun c hc => ?_) hs⟩
    rw [AfterBlock, if_pos (not_not.mp hdone)]
    exact hc.grows

theorem encodeBlocks_grows (hbase : base.Bounded) (hlength : config.length < 2 ^ 64)
    (hblocksize : config.blocksize = 0 → config.length = 0) :
    Triple (OnCore (Idle base config emptyHistogram)) (encodeBlocks (ρ := ρ) (ω := ω))
      (fun _ => OnCore (EncodeCore.Grows base)) fun _ => OnCore (EncodeCore.Grows base) := by
  apply idle_config_bind
  have hmalloc : Endures (OnCore (EncodeCore.Grows base))
      (OnCore (Idle base config emptyHistogram))
      (Routine.within (SelfRun.allocator (ρ := ρ) (ω := ω)) hufMalloc)
      fun _ => OnCore (Idle base config emptyHistogram) :=
    allocator_endures hufMalloc_endures (fun c outcomes hc =>
      ⟨⟨hc.config, hc.tree, hc.histogram, hc.length_symbols⟩, hc.bare.root,
        hc.bare.grown.of_nodes rfl rfl, hc.bare.bounded⟩) fun _ hc => Idle.grows hc
  apply hmalloc.triple.bind
  intro _
  apply Triple.bind (Q := fun _ => OnCore (EncodeCore.Grows base))
  · apply (Triple.whileLoopInside (Q := fun _ => OnCore (EncodeCore.Grows base))
      (fun l s => l.leftToRead ≤ config.length ∧ OnCore (AfterBlock base config l) s)
      (fun l s => (l.leftToRead ≤ config.length ∧ l.leftToRead ≠ 0) ∧
        OnCore (Idle base config emptyHistogram) s) _ _ _ _).strengthen
    · intro s hs
      refine ⟨Nat.le_refl _, onCore_mono (fun c hc => ?_) hs⟩
      rw [AfterBlock]
      split
      · exact Idle.grows hc
      · exact hc
    · intro l
      apply Triple.pure
      rintro s ⟨hle, hs⟩
      split
      · rename_i hmore
        have hne : l.leftToRead ≠ 0 := Nat.ne_of_gt (of_decide_eq_true hmore)
        refine ⟨⟨hle, hne⟩, onCore_mono (fun c hc => ?_) hs⟩
        rw [AfterBlock, if_neg hne] at hc
        exact hc
      · exact onCore_mono (fun _ hc => hc.grows) hs
    · intro l
      apply Triple.assume
      rintro ⟨hle, hne⟩
      apply (encodeNextBlock_grows hbase l (by omega) hne (by omega)).weaken
      intro step s hs
      cases step with
      | next l' => exact ⟨by omega, hs.2⟩
      | leave _ => exact hs.elim
  · intro _
    exact (writer_endures _ fun _ hc => hc).triple

end

/-! ## Creation and release -/

/-- The creation of an encoder leaves the nodes alone. -/
theorem hufEncoderInit_unplanted (config : Option (HufConfig ρ ω)) :
    Triple (Unplanted HufEncoder.huffmanTree base) (hufEncoderInit config)
      (fun _ => Unplanted HufEncoder.huffmanTree base)
      fun _ => Unplanted HufEncoder.huffmanTree base := by
  cases config with
  | none => exact Triple.fail fun _ hs => hs
  | some config =>
      apply (Unplanted.within (fun _ s hs => ⟨hs.nodes, hs.next, hs.root⟩) _).bind
      intro _
      apply Triple.bind (Q := fun _ => Unplanted HufEncoder.huffmanTree base)
      · exact Triple.modify fun _ hs => ⟨hs.nodes, hs.next, rfl⟩
      intro _
      refine (Unplanted.creating (by intros; rfl) _).bind fun _ => ?_
      refine (Unplanted.creatingTree (by intros; rfl)).bind fun _ => ?_
      refine (Unplanted.creating (by intros; rfl) _).bind fun _ => ?_
      refine (Unplanted.creating (by intros; rfl) _).bind fun _ => ?_
      exact Unplanted.creatingStreams (fun _ _ hs => hs.onSelf (by intros; rfl))
        (by intros; rfl) (by intros; rfl)

/-- The release of an encoder releases its nodes. -/
theorem hufEncoderFree_releases (hbase : base.Bounded) :
    Triple (Clearable HufEncoder.huffmanTree base) (hufEncoderFree (ρ := ρ) (ω := ω))
      (fun _ s => s.2.heap.nodes = base.nodes) fun _ s => s.2.heap.nodes = base.nodes := by
  apply (releasingTree_nodes hbase).bind
  intro _
  apply (releasing_nodes _).bind
  intro _
  apply (releasing_nodes _).bind
  intro _
  apply (releasing_nodes _).bind
  intro _
  apply (releasing_nodes _).bind
  intro _
  apply (releasing_nodes _).bind
  intro _
  exact Triple.modify fun _ hs => hs

/-! ## A whole call -/

/-- An encoder that is created has an empty tree, and the run ends with all its nodes in
the tree. -/
theorem encodeBody_clearable (config : Option (HufConfig ρ ω))
    (hlength : ∀ c, config = some c → c.length < 2 ^ 64) (world : World ρ ω)
    (hbase : world.heap.Bounded) :
    Triple (fun s => s = (none, world)) (encodeBody config)
      (fun _ => Clearable HufEncoder.huffmanTree world.heap)
      fun _ => Clearable HufEncoder.huffmanTree world.heap := by
  have hgrows : ∀ s : EncodeRun ρ ω, OnCore (EncodeCore.Grows world.heap) s →
      Clearable HufEncoder.huffmanTree world.heap s := by
    rintro _ ⟨e, rfl, he⟩ t ⟨⟩
    exact he
  apply Triple.bind (Q := fun _ s => ∃ config : HufConfig ρ ω,
    (config.length < 2 ^ 64 ∧ (config.blocksize = 0 → config.length = 0)) ∧
      OnCore (Idle world.heap config emptyHistogram) s)
  · rintro _ rfl
    have hstart : Unplanted HufEncoder.huffmanTree world.heap ((none, world) : EncodeRun ρ ω) :=
      ⟨rfl, rfl, rfl⟩
    have hunplanted := hufEncoderInit_unplanted config _ hstart
    refine ⟨fun a s hrun => ?_, fun code s hrun => (hunplanted.2 code s hrun).clearable hbase⟩
    have hs := hunplanted.1 a s hrun
    cases config with
    | none => cases hrun
    | some config =>
        have hended := hufEncoderInit_ended config (hlength config rfl) world
        rw [hrun] at hended
        cases hended with
        | value hstarted =>
            rcases hstarted.new with ⟨e, rfl, config, hlength, hblocksize, hfresh⟩
            exact ⟨config, ⟨hlength, hblocksize⟩, e, rfl, hfresh,
              bare_of_nodes hbase (congrArg HufTree.root hfresh.tree) hs.nodes hs.next⟩
  · intro _
    apply Triple.ofExists
    intro config
    apply Triple.assume
    rintro ⟨hlength, hblocksize⟩
    exact (encodeBlocks_grows hbase hlength hblocksize).mono (fun _ hs => hs) (fun _ => hgrows)
      fun _ => hgrows

/-- `huf_encode` releases every node that it allocates and no other node, whatever its
streams do and whichever allocations fail. -/
theorem hufEncode_releases (config : Option (HufConfig ρ ω))
    (hlength : ∀ c, config = some c → c.length < 2 ^ 64) {world world' : World ρ ω}
    (hbounded : world.heap.Bounded) {r : Except HufError Unit}
    (hrun : hufEncode config world = .ok (r, world')) : world'.heap.nodes = world.heap.nodes :=
  nodes_eq_of_call (encodeBody_clearable config hlength world hbounded)
    (hufEncoderFree_releases hbounded) hrun

/-- Three blocks, and a caller with a node of its own. -/
theorem hufEncode_releases_own :
    let own : ℕ → Option HufNode := fun p => if p = 0 then some ⟨49, none, none, none⟩ else none
    let world := { fifoWorld [1, 2, 3, 3, 3, 3, 2, 4, 2, 5] with heap := ⟨own, 1, []⟩ }
    ∃ r world', hufEncode (some { fifoConfig 10 3 0 with blocksize := 4 }) world =
        .ok (r, world') ∧ world'.heap.nodes = own := by
  intro own world
  have hsmall : SmallTrees 4 [1, 2, 3, 3, 3, 3, 2, 4, 2, 5] := smallTrees_of_short (by decide)
  have hbounded : world.heap.Bounded := fun p hp => if_neg (Nat.ne_of_gt hp)
  rcases hufEncode_eq Fifo.source Fifo.sink { fifoConfig 10 3 0 with blocksize := 4 } world rfl rfl
    rfl trivial rfl (by decide) with ⟨-, world', hrun, -⟩ | ⟨hunfit, -⟩
  · exact ⟨_, world', hrun, hufEncode_releases _ (fun c hc => by cases hc; decide) hbounded hrun⟩
  · exact absurd (hsmall.fits (by decide)) hunfit

end LibHuffman
