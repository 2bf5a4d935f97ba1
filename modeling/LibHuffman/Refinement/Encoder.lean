/-
# The encoder on real streams

A run of the encoder on streams that may fail, with allocations that may fail, is tied to
the run on ideal streams without failures. Both do the same until a write or an
allocation is refused. Then the first one stops, and what it has written is the beginning
of what the second one writes, however that goes on.
-/

import LibHuffman.Allocation.Encoder
import LibHuffman.Encode.Block
import LibHuffman.Refinement.Object

namespace LibHuffman

open Foundation Allocating

variable {ρ ω : Type}

/-! ## The tie -/

/-- Two encoders at the same place. The streams and buffers of the second one are ideal,
and it does not run out of memory. -/
structure EncodeTwins (src : Source ρ) (sink : PartialSink ω) (base : List UInt8)
    (first : List Bool) (e : EncodeState ρ ω) (e' : EncodeState Fifo Fifo) : Prop where
  blocksize : e'.config.blocksize = e.config.blocksize
  length : e'.config.length = e.config.length
  bitWriter : e'.bitWriter = e.bitWriter
  mapping : e'.mapping = e.mapping
  histogram : e'.histogram = e.histogram
  tree : e'.tree = schedule [] e.tree
  spared : Spared first (allocations e.tree)
  reading : ∃ rest, Reading src e.reader rest ∧ Reading Fifo.source e'.reader rest
  writing : ∃ written, Appending sink base e.writer written ∧
    Unbuffered e'.writer written

/-- The states of an encoder, and where its routines find the tree and the writer. -/
abbrev EncodeState.states (ρ ω : Type) : ObjectStates (EncodeState ρ ω) (HufEncoder ρ ω) ρ ω where
  run := EncodeState.run
  tree := EncodeState.tree
  setTree tree e := { e with tree }
  treePlace := EncodeRun.huffmanTree
  writer := EncodeState.writer
  setWriter writer e := { e with writer }
  writerPlace := EncodeRun.bufioWriter

theorem EncodeState.states_lawful : (EncodeState.states ρ ω).Lawful := by
  constructor <;> intros <;> rfl

theorem encodeTwins_twinned (src : Source ρ) (sink : PartialSink ω) (base : List UInt8)
    (first : List Bool) :
    (EncodeState.states ρ ω).Twinned (EncodeState.states Fifo Fifo) sink base first
      (EncodeTwins src sink base first) where
  tree h := h.tree
  spared h := h.spared
  writing h := h.writing
  setTree _ h hspared := { h with tree := rfl, spared := hspared }
  setWriter h happending hwriting := { h with writing := ⟨_, happending, hwriting⟩ }

/-- The tie of two runs of the encoder. -/
def encodeTie (src : Source ρ) (sink : PartialSink ω) (base : List UInt8) (first : List Bool) :
    Tie HufError (EncodeRun ρ ω) (EncodeRun Fifo Fifo) :=
  (EncodeState.states ρ ω).tie (EncodeState.states Fifo Fifo) sink base first
    (EncodeTwins src sink base first)

section

variable {src : Source ρ} {sink : PartialSink ω} {base : List UInt8} {first : List Bool}
  {α β : Type} {V : α → Prop}

theorem encodeTie_failed {s : EncodeRun ρ ω} {t : EncodeRun Fifo Fifo} (code : HufError)
    (h : (encodeTie src sink base first).both s t) :
    (encodeTie src sink base first).failed code s t :=
  ObjectStates.tie_failed (encodeTwins_twinned src sink base first) code h

/-! ## Routines on one object -/

/-- A routine on an object that is the same in both encoders. -/
theorem encodeTie_same {place : Place Fault (EncodeRun ρ ω) β}
    {place' : Place Fault (EncodeRun Fifo Fifo) β}
    (hload : ∀ (e : EncodeState ρ ω) (e' : EncodeState Fifo Fifo),
      EncodeTwins src sink base first e e' →
      ∃ b, place.load e.run = .ok b ∧ place'.load e'.run = .ok b ∧
        ∀ b', ∃ e₁ e₁', place.store b' e.run = e₁.run ∧ place'.store b' e'.run = e₁'.run ∧
          EncodeTwins src sink base first e₁ e₁')
    (hstore : ∀ (e' : EncodeState Fifo Fifo) b,
      ∃ e'' : EncodeState Fifo Fifo, place'.store b e'.run = e''.run ∧ e''.writer = e'.writer)
    (x : CRoutine β α) :
    (encodeTie src sink base first).Joins (Routine.within place x) (Routine.within place' x)
      fun _ => True where
  onward := ObjectStates.tie_onward (fun e' _ _ b' _ _ => hstore e' b') fun _ _ _ _ => trivial
  together := by
    rintro _ _ ⟨e, e', rfl, rfl, htwins⟩
    rcases hload e e' htwins with ⟨b, hb, hb', hstores⟩
    have hboth : ∀ b', (encodeTie src sink base first).both (place.store b' e.run)
        (place'.store b' e'.run) := by
      intro b'
      rcases hstores b' with ⟨e₁, e₁', hrun, hrun', htwins'⟩
      exact ⟨e₁, e₁', hrun, hrun', htwins'⟩
    apply Tie.Ends.within hb hb'
    apply Tie.Ends.same
    · exact fun _ b' _ => ⟨trivial, hboth b'⟩
    · exact fun code b' _ => encodeTie_failed code (hboth b')

theorem encodeTie_mapping (x : CRoutine HufSymbolMapping α) :
    (encodeTie src sink base first).Joins (Routine.within EncodeRun.mapping x)
      (Routine.within EncodeRun.mapping x) fun _ => True := by
  apply encodeTie_same
  · intro e e' h
    refine ⟨e.mapping, rfl, by rw [← h.mapping]; rfl, fun m => ?_⟩
    exact ⟨{ e with mapping := m }, { e' with mapping := m }, rfl, rfl,
      { h with mapping := rfl }⟩
  · exact fun e' m => ⟨{ e' with mapping := m }, rfl, rfl⟩

theorem encodeTie_bitWriter (x : CRoutine HufBitReadWriter α) :
    (encodeTie src sink base first).Joins (Routine.within EncodeRun.bitWriter x)
      (Routine.within EncodeRun.bitWriter x) fun _ => True := by
  apply encodeTie_same
  · intro e e' h
    refine ⟨e.bitWriter, rfl, by rw [← h.bitWriter]; rfl, fun b => ?_⟩
    exact ⟨{ e with bitWriter := b }, { e' with bitWriter := b }, rfl, rfl,
      { h with bitWriter := rfl }⟩
  · exact fun e' b => ⟨{ e' with bitWriter := b }, rfl, rfl⟩

theorem encodeTie_histogram (x : CRoutine HufHistogram α) :
    (encodeTie src sink base first).Joins (Routine.within EncodeRun.histogram x)
      (Routine.within EncodeRun.histogram x) fun _ => True := by
  apply encodeTie_same
  · intro e e' h
    refine ⟨e.histogram, rfl, by rw [← h.histogram]; rfl, fun b => ?_⟩
    exact ⟨{ e with histogram := b }, { e' with histogram := b }, rfl, rfl,
      { h with histogram := rfl }⟩
  · exact fun e' b => ⟨{ e' with histogram := b }, rfl, rfl⟩

theorem encodeTie_tree (x : CRoutine TreeStore α)
    (hx : ∀ t, Endures (fun _ => True) (fun t' => t' = t) x fun _ _ => True) :
    (encodeTie src sink base first).Joins (Routine.within EncodeRun.huffmanTree x)
      (Routine.within EncodeRun.huffmanTree x) fun _ => True :=
  ObjectStates.tie_tree EncodeState.states_lawful EncodeState.states_lawful
    (encodeTwins_twinned src sink base first) x hx

theorem encodeTie_histogramTree (x : CRoutine HistogramTree α)
    (hx : ∀ t, Endures (fun _ => True) (fun t' => t' = t) x fun _ _ => True) :
    (encodeTie src sink base first).Joins (Routine.within EncodeRun.histogramTree x)
      (Routine.within EncodeRun.histogramTree x) fun _ => True := by
  apply ObjectStates.tie_carried EncodeState.states_lawful
    (encodeTwins_twinned src sink base first) _ _ x hx
  · intro e e' h
    refine ⟨⟨e.tree.tree, e.histogram, e.tree.heap⟩, rfl, ?_, h.spared, fun t => ?_⟩
    · show Except.ok (HistogramTree.mk e'.tree.tree e'.histogram e'.tree.heap) = _
      rw [h.tree, h.histogram]
      rfl
    · refine ⟨{ e with tree := ⟨t.tree, t.heap⟩, histogram := t.histogram }, rfl, rfl,
        fun hspared => ?_⟩
      exact ⟨{ e' with tree := ⟨t.tree, schedule [] t.heap⟩, histogram := t.histogram }, rfl,
        { h with tree := rfl, histogram := rfl, spared := hspared }⟩
  · exact fun e' t => ⟨{ e' with tree := ⟨t.tree, t.heap⟩, histogram := t.histogram }, rfl, rfl⟩

theorem encodeTie_allocator (x : CRoutine (List Bool) α)
    (hx : Endures (fun _ => True) (fun _ => True) x fun _ _ => True) :
    (encodeTie src sink base first).Joins (Routine.within SelfRun.allocator x)
      (Routine.within SelfRun.allocator x) fun _ => True :=
  ObjectStates.tie_allocator EncodeState.states_lawful EncodeState.states_lawful
    (encodeTwins_twinned src sink base first) x hx

/-- A read, which delivers the same bytes to both encoders or fails in both. -/
theorem encodeTie_read (buf : List UInt8) :
    (encodeTie src sink base first).Joins
      (Routine.within EncodeRun.bufioReader (hufBufioRead buf))
      (Routine.within EncodeRun.bufioReader (hufBufioRead buf)) fun _ => True where
  onward := by
    apply ObjectStates.tie_onward _ fun _ _ _ _ => trivial
    intro e' _ _ b _ _
    exact ⟨{ e' with reader := b }, rfl, rfl⟩
  together := by
    rintro _ _ ⟨e, e', rfl, rfl, htwins⟩
    rcases htwins.reading with ⟨rest, hreading, hreading'⟩
    by_cases hlen : buf.length ≤ rest.length
    · rcases hufBufioRead_ok hreading buf hlen with ⟨b, hrun, h, -⟩
      rcases hufBufioRead_ok hreading' buf hlen with ⟨b', hrun', h', -⟩
      rw [EncodeState.within_reader hrun, EncodeState.within_reader hrun']
      exact .value trivial ⟨{ e with reader := b }, { e' with reader := b' }, rfl, rfl,
        { htwins with reading := ⟨_, h, h'⟩ }⟩
    · rcases hufBufioRead_error hreading buf (by omega) with ⟨b, hrun, -⟩
      rcases hufBufioRead_error hreading' buf (by omega) with ⟨b', hrun', -⟩
      rw [EncodeState.within_reader hrun, EncodeState.within_reader hrun']
      exact .error ⟨{ e with reader := b }, { e' with reader := b' }, rfl, rfl, htwins.writing⟩

theorem encodeTie_write {buf : List UInt8} (hbuf : buf.length ≤ sink.limit) :
    (encodeTie src sink base first).Joins
      (Routine.within EncodeRun.bufioWriter (hufBufioWrite buf))
      (Routine.within EncodeRun.bufioWriter (hufBufioWrite buf)) fun _ => True :=
  ObjectStates.tie_write EncodeState.states_lawful EncodeState.states_lawful
    (encodeTwins_twinned src sink base first) hbuf

theorem encodeTie_writeUint8 (byte : UInt8) (hlimit : 1 ≤ sink.limit) :
    (encodeTie src sink base first).Joins
      (Routine.within EncodeRun.bufioWriter (hufBufioWriteUint8 byte))
      (Routine.within EncodeRun.bufioWriter (hufBufioWriteUint8 byte)) fun _ => True :=
  @encodeTie_write _ _ _ _ _ _ [byte] hlimit

theorem encodeTie_flush : (encodeTie src sink base first).Joins
    (Routine.within EncodeRun.bufioWriter hufBufioReadWriterFlush)
    (Routine.within EncodeRun.bufioWriter hufBufioReadWriterFlush) fun _ => True :=
  ObjectStates.tie_flush EncodeState.states_lawful EncodeState.states_lawful
    (encodeTwins_twinned src sink base first)

/-! ## Reading an object -/

variable {f : β → CRoutine (EncodeRun ρ ω) α} {g : β → CRoutine (EncodeRun Fifo Fifo) α}

theorem encodeTie_config_bind {f : HufConfig ρ ω → CRoutine (EncodeRun ρ ω) α}
    {g : HufConfig Fifo Fifo → CRoutine (EncodeRun Fifo Fifo) α}
    (h : ∀ c c', c'.blocksize = c.blocksize → c'.length = c.length →
      (encodeTie src sink base first).Joins (f c) (g c') V) :
    (encodeTie src sink base first).Joins (Routine.within EncodeRun.config Routine.get >>= f)
      (Routine.within EncodeRun.config Routine.get >>= g) V := by
  apply Tie.Joins.read_bind fun c c' => c'.blocksize = c.blocksize ∧ c'.length = c.length
  · rintro _ _ ⟨e, e', rfl, rfl, htwins⟩
    exact ⟨_, _, rfl, rfl, rfl, rfl, htwins.blocksize, htwins.length⟩
  · exact EncodeRun.separate_config.store_load
  · exact fun c' => ⟨⟨c'.length, c'.blocksize, 0, 0, none, none⟩, rfl, rfl⟩
  · exact fun c c' hc => h c c' hc.1 hc.2

theorem encodeTie_mapping_bind {f : HufSymbolMapping → CRoutine (EncodeRun ρ ω) α}
    {g : HufSymbolMapping → CRoutine (EncodeRun Fifo Fifo) α}
    (h : ∀ m, (encodeTie src sink base first).Joins (f m) (g m) V) :
    (encodeTie src sink base first).Joins (Routine.within EncodeRun.mapping Routine.get >>= f)
      (Routine.within EncodeRun.mapping Routine.get >>= g) V := by
  apply Tie.Joins.read_bind fun m m' => m' = m
  · rintro _ _ ⟨e, e', rfl, rfl, htwins⟩
    exact ⟨_, _, rfl, rfl, rfl, rfl, htwins.mapping⟩
  · exact EncodeRun.separate_mapping.store_load
  · exact fun m => ⟨m, rfl⟩
  · rintro _ m rfl
    exact h m

theorem encodeTie_bitWriter_bind {f : HufBitReadWriter → CRoutine (EncodeRun ρ ω) α}
    {g : HufBitReadWriter → CRoutine (EncodeRun Fifo Fifo) α}
    (h : ∀ b, (encodeTie src sink base first).Joins (f b) (g b) V) :
    (encodeTie src sink base first).Joins (Routine.within EncodeRun.bitWriter Routine.get >>= f)
      (Routine.within EncodeRun.bitWriter Routine.get >>= g) V := by
  apply Tie.Joins.read_bind fun b b' => b' = b
  · rintro _ _ ⟨e, e', rfl, rfl, htwins⟩
    exact ⟨_, _, rfl, rfl, rfl, rfl, htwins.bitWriter⟩
  · exact EncodeRun.separate_bitWriter.store_load
  · exact fun b => ⟨b, rfl⟩
  · rintro _ b rfl
    exact h b

/-- A routine that goes on with the tree, and does not look at the allocations. -/
theorem encodeTie_tree_bind {f : TreeStore → CRoutine (EncodeRun ρ ω) α}
    {g : TreeStore → CRoutine (EncodeRun Fifo Fifo) α}
    (hsame : ∀ t, g (schedule [] t) = g t)
    (h : ∀ t, (encodeTie src sink base first).Joins (f t) (g t) V) :
    (encodeTie src sink base first).Joins (Routine.within EncodeRun.huffmanTree Routine.get >>= f)
      (Routine.within EncodeRun.huffmanTree Routine.get >>= g) V := by
  apply Tie.Joins.read_bind fun t t' => g t' = g t
  · rintro _ _ ⟨e, e', rfl, rfl, htwins⟩
    refine ⟨_, _, rfl, rfl, rfl, rfl, ?_⟩
    show g e'.tree = g e.tree
    rw [htwins.tree]
    exact hsame _
  · intro s t hload
    rcases s with ⟨_ | ⟨config, bits, _ | tree, mapping, histogram, writer, reader⟩, world⟩ <;>
      cases hload
    rfl
  · exact fun t => ⟨t, rfl⟩
  · intro t t' ht
    rw [ht]
    exact h t

/-! ## The routines of the encoder -/

theorem encodeTie_writeBit (bit : UInt8) (hlimit : 1 ≤ sink.limit) :
    (encodeTie src sink base first).Joins (writeBit bit) (writeBit bit) fun _ => True := by
  apply (encodeTie_bitWriter _).bind
  intro _ _
  apply encodeTie_bitWriter_bind
  intro bitWriter
  apply Tie.Joins.ite
  · intro _
    apply (encodeTie_writeUint8 _ hlimit).bind
    intro _ _
    exact encodeTie_bitWriter _
  · exact fun _ => Tie.Joins.pure trivial

theorem encodeTie_writeCoding (element : HufSymbolMappingElement) (n : ℕ)
    (hlimit : 1 ≤ sink.limit) :
    (encodeTie src sink base first).Joins (writeCoding element n) (writeCoding element n)
      fun _ => True := by
  induction n with
  | zero => exact Tie.Joins.pure trivial
  | succ n ih =>
      apply Tie.Joins.demand_bind
      intro bit _
      apply (encodeTie_writeBit bit hlimit).bind
      intro _ _
      exact ih

theorem encodeTie_encodeByte (byte : UInt8) (hlimit : 1 ≤ sink.limit) :
    (encodeTie src sink base first).Joins (encodeByte byte) (encodeByte byte) fun _ => True := by
  apply (encodeTie_mapping _).bind
  intro element _
  apply Tie.Joins.demand_bind
  intro element _
  exact encodeTie_writeCoding element _ hlimit

theorem encodeTie_encodeBlock (buf : List UInt8) (hlimit : 1 ≤ sink.limit) :
    (encodeTie src sink base first).Joins (hufEncodeBlock buf) (hufEncodeBlock buf)
      fun _ => True := by
  apply Tie.Joins.bind (Tie.Joins.forM buf fun byte _ => encodeTie_encodeByte byte hlimit)
  intro _ _
  apply encodeTie_bitWriter_bind
  intro bitWriter
  apply Tie.Joins.ite
  · exact fun _ => encodeTie_writeUint8 _ hlimit
  · exact fun _ => Tie.Joins.pure trivial

theorem encodeTie_createCoding (index : ℕ) :
    (encodeTie src sink base first).Joins (createCoding index) (createCoding index)
      fun _ => True := by
  apply encodeTie_tree_bind
  · intro t
    have hstring : hufNodeToString (schedule [] t).heap = hufNodeToString t.heap :=
      funext₂ fun room pointer => hufNodeToString_schedule t.heap room pointer
    simp only [hstring]
    rfl
  intro t
  apply Tie.Joins.demand_bind
  intro node _
  apply Tie.Joins.ite
  · intro _
    apply Tie.Joins.demand_bind
    intro coding _
    apply (encodeTie_allocator _ (hufSymbolMappingElementInit_endures coding)).bind
    intro element _
    exact encodeTie_mapping _
  · exact fun _ => Tie.Joins.pure trivial

theorem encodeTie_createCharCoding :
    (encodeTie src sink base first).Joins hufCreateCharCoding hufCreateCharCoding
      fun _ => True := by
  apply encodeTie_mapping_bind
  intro m
  exact Tie.Joins.forM _ fun index _ => encodeTie_createCoding index

/-- One block. The buffer for the tree keeps its length, so that its words are written
within the limit. -/
theorem encodeTie_nextBlock (l : EncodeLocals) (hlimit : 2 * hufBtreeLen ≤ sink.limit)
    (hl : l.treeHead.length = hufBtreeLen) :
    (encodeTie src sink base first).Joins (encodeNextBlock l) (encodeNextBlock l)
      fun step => step.locals.treeHead.length = hufBtreeLen := by
  have hsmall : 2048 ≤ sink.limit := hlimit
  apply encodeTie_config_bind
  intro c c' hblocksize _
  dsimp only
  rw [hblocksize]
  apply Tie.Joins.demand_bind
  intro dest _
  apply (encodeTie_read dest).bind
  intro block _
  apply Tie.Joins.demand_bind
  intro buf _
  apply (encodeTie_histogram _).bind
  intro _ _
  apply (encodeTie_histogramTree _ fun t => ?_).bind
  · intro _ _
    apply encodeTie_createCharCoding.bind
    intro _ _
    apply encodeTie_tree_bind
    · intro t
      simp only [hufTreeSerialize_schedule]
    intro t
    apply Tie.Joins.demand_bind
    rintro ⟨treeHead, treeLength⟩ hserialize
    dsimp only
    have hlength : treeHead.length = hufBtreeLen := (length_hufTreeSerialize hserialize).trans hl
    apply (encodeTie_write _).bind
    · intro _ _
      apply (encodeTie_write _).bind
      · intro _ _
        apply Tie.Joins.demand_bind
        intro words hwords
        apply (encodeTie_write _).bind
        · intro _ _
          apply (encodeTie_bitWriter _).bind
          intro _ _
          apply (encodeTie_encodeBlock block (by omega)).bind
          intro _ _
          apply Tie.Joins.ite
          · intro _
            apply (encodeTie_tree _ fun _ => hufTreeReset_endures.weaken fun _ _ _ => trivial).bind
            intro _ _
            apply (encodeTie_histogram _).bind
            intro _ _
            apply (encodeTie_mapping _).bind
            intro _ _
            exact Tie.Joins.pure hlength
          · exact fun _ => Tie.Joins.pure hlength
        · have hle := le_of_slice hwords
          rw [length_wordsBytes, length_slice hwords]
          omega
      · rw [length_wordBytes]
        omega
    · rw [length_leBytes]
      omega
  · exact (hufTreeFromHistogram_endures t.tree.root).mono (fun _ ht => by rw [ht])
      (fun _ _ => trivial) fun _ _ _ => trivial

/-- All blocks and the final flush. -/
theorem encodeTie_encodeBlocks (hlimit : 2 * hufBtreeLen ≤ sink.limit) :
    (encodeTie src sink base first).Joins encodeBlocks encodeBlocks fun _ => True := by
  apply encodeTie_config_bind
  intro c c' hblocksize hlength
  apply (encodeTie_allocator _ hufMalloc_endures).bind
  intro _ _
  rw [hblocksize, hlength]
  apply Tie.Joins.bind (V := fun l : EncodeLocals => l.treeHead.length = hufBtreeLen)
  · apply Tie.Joins.whileLoop
    · exact fun _ _ => Tie.Joins.pure trivial
    · exact fun l hl => encodeTie_nextBlock l hlimit hl
    · exact List.length_replicate
  · intro _ _
    exact encodeTie_flush

end

end LibHuffman
