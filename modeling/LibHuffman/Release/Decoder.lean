/-
# The nodes of a decoder

A decoder allocates the nodes of one tree for every block and releases them before the next
one. Wherever a block fails, what it has allocated hangs at the root of the tree, and is
released with the decoder: `huf_decode` leaves the nodes of its caller as they were.
-/

import LibHuffman.Allocation.Decoding
import LibHuffman.Decode.Acceptance
import LibHuffman.Release.Heap

namespace LibHuffman

open Foundation Allocating DecodeRun

variable {ρ ω : Type} {base : Heap}

/-! ## Blocks -/

/-- A routine that endures everything leaves the nodes alone. -/
theorem DecodeRun.alone {α : Type} {x : CRoutine (DecodeRun ρ ω) α}
    (h : Endures (OnTree (Bare base)) (OnTree (Bare base)) x fun _ => OnTree (Bare base)) :
    Triple (OnTree (Bare base)) x (fun _ => OnTree (Bare base)) fun _ => OnTree (Grows base) := by
  apply h.triple.mono (fun _ hs => hs) fun _ _ hs => hs
  rintro _ s ⟨d, hd, hbare⟩
  exact ⟨d, hd, hbare.grows⟩

/-- A routine on the tree. -/
theorem DecodeRun.tree_triple {α : Type} {P : TreeStore → Prop} {x : CRoutine TreeStore α}
    {Q : α → TreeStore → Prop} {E : HufError → TreeStore → Prop} (h : Triple P x Q E) :
    Triple (OnTree P) (Routine.within (huffmanTree (ρ := ρ) (ω := ω)) x)
      (fun a => OnTree (Q a)) fun code => OnTree (E code) := by
  apply Triple.within
  rintro _ ⟨d, rfl, hd⟩
  apply h.mono
  · rintro t ⟨⟩
    exact hd
  · exact fun a t ht => ⟨{ d with tree := t }, rfl, ht⟩
  · exact fun code t ht => ⟨{ d with tree := t }, rfl, ht⟩

/-- A block releases the nodes that it has allocated. -/
theorem decodeNextBlock_grows (hbase : base.Bounded) (treeLength : Int16) :
    Triple (OnTree (Bare base)) (decodeNextBlock (ρ := ρ) (ω := ω) treeLength)
      (fun _ => OnTree (Bare base)) fun _ => OnTree (Grows base) := by
  apply (alone (config_endures _)).bind
  intro config
  apply (alone (reader_endures _)).bind
  intro buf
  apply (alone (config_endures _)).bind
  intro _
  apply (alone (reader_endures _)).bind
  intro buf
  apply Triple.ite
  · intro _
    apply Triple.fail
    rintro _ ⟨d, rfl, hd⟩
    exact ⟨d, rfl, hd.grows⟩
  intro _
  apply (alone (malloc_endures fun t outcomes ht =>
    ⟨ht.root, ht.grown.of_nodes rfl rfl, ht.bounded⟩)).bind
  intro _
  apply (alone (reader_endures _)).bind
  intro treeHead
  apply (tree_triple (hufTreeDeserialize_grows hbase _ _)).bind
  intro _
  apply (config_endures _).triple.bind
  intro config
  apply (hufDecodeBlock_endures _).triple.bind
  intro _
  apply (tree_triple (hufTreeReset_grows hbase)).bind
  intro _
  apply (alone (setLastNode_endures none)).bind
  intro _
  exact Triple.pure fun _ hs => hs

theorem decodeBlocks_grows (hbase : base.Bounded) :
    Triple (OnTree (Bare base)) (decodeBlocks (ρ := ρ) (ω := ω)) (fun _ => OnTree (Grows base))
      fun _ => OnTree (Grows base) := by
  apply (alone (config_endures _)).bind
  intro config
  apply Triple.bind (Q := fun _ => OnTree (Bare base))
  · apply Triple.whileLoop fun _ => OnTree (Bare base)
    · intro _
      apply (alone (config_endures _)).bind
      intro config
      apply (alone (reader_endures _)).bind
      intro reader
      apply Triple.pure
      intro s hs
      split <;> exact hs
    · intro treeLength
      apply (decodeNextBlock_grows hbase treeLength).bind
      intro treeLength
      exact Triple.pure fun _ hs => hs
  · intro _
    apply (alone (writer_endures _)).weaken
    rintro _ _ ⟨d, rfl, hd⟩
    exact ⟨d, rfl, hd.grows⟩

/-! ## Creation and release -/

/-- The creation of a decoder leaves the nodes alone. -/
theorem hufDecoderInit_unplanted (config : Option (HufConfig ρ ω)) :
    Triple (Unplanted HufDecoder.huffmanTree base) (hufDecoderInit config)
      (fun _ => Unplanted HufDecoder.huffmanTree base)
      fun _ => Unplanted HufDecoder.huffmanTree base := by
  cases config with
  | none => exact Triple.fail fun _ hs => hs
  | some config =>
      apply (Unplanted.within (fun _ s hs => ⟨hs.nodes, hs.next, hs.root⟩) _).bind
      intro _
      apply Triple.bind (Q := fun _ => Unplanted HufDecoder.huffmanTree base)
      · exact Triple.modify fun _ hs => ⟨hs.nodes, hs.next, rfl⟩
      intro _
      refine (Unplanted.creating (by intros; rfl) _).bind fun _ => ?_
      refine (Unplanted.creatingTree (by intros; rfl)).bind fun _ => ?_
      exact Unplanted.creatingStreams (fun _ _ hs => hs.onSelf (by intros; rfl))
        (by intros; rfl) (by intros; rfl)

/-- The release of a decoder releases its nodes. -/
theorem hufDecoderFree_releases (hbase : base.Bounded) :
    Triple (Clearable HufDecoder.huffmanTree base) (hufDecoderFree (ρ := ρ) (ω := ω))
      (fun _ s => s.2.heap.nodes = base.nodes) fun _ s => s.2.heap.nodes = base.nodes := by
  apply (releasingTree_nodes hbase).bind
  intro _
  apply (releasing_nodes _).bind
  intro _
  apply (releasing_nodes _).bind
  intro _
  apply (releasing_nodes _).bind
  intro _
  exact Triple.modify fun _ hs => hs

/-! ## A whole call -/

/-- A decoder that is created has an empty tree, and the run ends with all its nodes in
the tree. -/
theorem decodeBody_clearable (config : Option (HufConfig ρ ω)) (world : World ρ ω)
    (hbase : world.heap.Bounded) :
    Triple (fun s => s = (none, world)) (decodeBody config)
      (fun _ => Clearable HufDecoder.huffmanTree world.heap)
      fun _ => Clearable HufDecoder.huffmanTree world.heap := by
  have hinit : Triple (fun s => s = (none, world)) (hufDecoderInit config)
      (fun _ => OnTree (Bare world.heap))
      fun _ => Clearable HufDecoder.huffmanTree world.heap := by
    rintro _ rfl
    have hstart : Unplanted HufDecoder.huffmanTree world.heap ((none, world) : DecodeRun ρ ω) :=
      ⟨rfl, rfl, rfl⟩
    have hunplanted := hufDecoderInit_unplanted config _ hstart
    refine ⟨fun a s hrun => ?_, fun code s hrun => (hunplanted.2 code s hrun).clearable hbase⟩
    have hs := hunplanted.1 a s hrun
    cases config with
    | none => cases hrun
    | some config =>
        have hended := hufDecoderInit_ended config world
        rw [hrun] at hended
        cases hended with
        | value hstarted =>
            rcases hstarted.new with ⟨d, rfl, hroot⟩
            exact ⟨d, rfl, bare_of_nodes hbase hroot hs.nodes hs.next⟩
  have hgrows : ∀ s : DecodeRun ρ ω, OnTree (Grows world.heap) s →
      Clearable HufDecoder.huffmanTree world.heap s := by
    rintro _ ⟨d, rfl, hd⟩ t ⟨⟩
    exact hd
  apply hinit.bind
  intro _
  exact (decodeBlocks_grows hbase).mono (fun _ hs => hs) (fun _ => hgrows) fun _ => hgrows

/-- `huf_decode` releases every node that it allocates and no other node, whatever its
input is, whatever its streams do and whichever allocations fail. -/
theorem hufDecode_releases (config : Option (HufConfig ρ ω)) {world world' : World ρ ω}
    (hbounded : world.heap.Bounded) {r : Except HufError Unit}
    (hrun : hufDecode config world = .ok (r, world')) : world'.heap.nodes = world.heap.nodes :=
  nodes_eq_of_call (decodeBody_clearable config world hbounded)
    (hufDecoderFree_releases hbounded) hrun

/-- The archive of a single byte, and a caller with a node of its own. -/
theorem hufDecode_releases_own :
    let content : List UInt8 :=
      [1, 0, 0, 0, 0, 0, 0, 0, 5, 0, 0, 1, 49, 0, 255, 255, 255, 255, 255, 255, 0]
    let own : ℕ → Option HufNode := fun p => if p = 0 then some ⟨49, none, none, none⟩ else none
    let world := { fifoWorld content with heap := ⟨own, 1, []⟩ }
    ∃ world', hufDecode (some (fifoConfig 21 4 0)) world = .ok (.ok (), world') ∧
      world'.heap.nodes = own := by
  intro content own world
  have hends := hufDecode_ends Fifo.source Fifo.sink (fifoConfig 21 4 0) world rfl rfl rfl trivial
  have hread : readBlocks (fifoConfig 21 4 0).length (Fifo.source.remaining world.input) =
      .complete [49] [] := by
    have hblocks : Blocks content [49] := blocks_of_readBlock (by decide)
    exact readBlocks_of_blocks hblocks
  rw [hread] at hends
  rcases hends with ⟨world', hrun, -⟩
  have hbounded : world.heap.Bounded := fun p hp => if_neg (Nat.ne_of_gt hp)
  exact ⟨world', hrun, hufDecode_releases _ hbounded hrun⟩

end LibHuffman
