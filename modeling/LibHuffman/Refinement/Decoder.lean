/-
# The decoder on real streams

A run of the decoder on streams that may fail, with allocations that may fail, is tied to
the run on ideal streams without failures, like a run of the encoder. The input may be
anything: where the ideal run leaves with a code, the other one leaves with that code or
has stopped before.
-/

import LibHuffman.Allocation.Decoder
import LibHuffman.Decode.Stream
import LibHuffman.Refinement.Object

namespace LibHuffman

open Foundation Allocating

variable {ρ ω : Type}

/-! ## The tie -/

/-- Two decoders at the same place. The streams and buffers of the second one are ideal,
and it does not run out of memory. -/
structure DecodeTwins (src : Source ρ) (sink : PartialSink ω) (base : List UInt8)
    (first : List Bool) (d : DecodeState ρ ω) (d' : DecodeState Fifo Fifo) : Prop where
  blocksize : d'.config.blocksize = d.config.blocksize
  length : d'.config.length = d.config.length
  lastNode : d'.lastNode = d.lastNode
  tree : d'.tree = schedule [] d.tree
  spared : Spared first (allocations d.tree)
  reading : ∃ total rest, Draining src total d.reader rest ∧
    Draining Fifo.source total d'.reader rest
  writing : ∃ written, Appending sink base d.writer written ∧
    Unbuffered d'.writer written

/-- The states of a decoder, and where its routines find the tree and the writer. -/
abbrev DecodeState.states (ρ ω : Type) : ObjectStates (DecodeState ρ ω) (HufDecoder ρ ω) ρ ω where
  run := DecodeState.run
  tree := DecodeState.tree
  setTree tree d := { d with tree }
  treePlace := DecodeRun.huffmanTree
  writer := DecodeState.writer
  setWriter writer d := { d with writer }
  writerPlace := DecodeRun.bufioWriter

theorem DecodeState.states_lawful : (DecodeState.states ρ ω).Lawful := by
  constructor <;> intros <;> rfl

theorem decodeTwins_twinned (src : Source ρ) (sink : PartialSink ω) (base : List UInt8)
    (first : List Bool) :
    (DecodeState.states ρ ω).Twinned (DecodeState.states Fifo Fifo) sink base first
      (DecodeTwins src sink base first) where
  tree h := h.tree
  spared h := h.spared
  writing h := h.writing
  setTree _ h hspared := { h with tree := rfl, spared := hspared }
  setWriter h happending hwriting := { h with writing := ⟨_, happending, hwriting⟩ }

/-- The tie of two runs of the decoder. -/
def decodeTie (src : Source ρ) (sink : PartialSink ω) (base : List UInt8) (first : List Bool) :
    Tie HufError (DecodeRun ρ ω) (DecodeRun Fifo Fifo) :=
  (DecodeState.states ρ ω).tie (DecodeState.states Fifo Fifo) sink base first
    (DecodeTwins src sink base first)

section

variable {src : Source ρ} {sink : PartialSink ω} {base : List UInt8} {first : List Bool}
  {α β : Type} {V : α → Prop}

theorem decodeTie_failed {s : DecodeRun ρ ω} {t : DecodeRun Fifo Fifo} (code : HufError)
    (h : (decodeTie src sink base first).both s t) :
    (decodeTie src sink base first).failed code s t :=
  ObjectStates.tie_failed (decodeTwins_twinned src sink base first) code h

/-! ## Routines on one object -/

theorem decodeTie_tree (x : CRoutine TreeStore α)
    (hx : ∀ t, Endures (fun _ => True) (fun t' => t' = t) x fun _ _ => True) :
    (decodeTie src sink base first).Joins (Routine.within DecodeRun.huffmanTree x)
      (Routine.within DecodeRun.huffmanTree x) fun _ => True :=
  ObjectStates.tie_tree DecodeState.states_lawful DecodeState.states_lawful
    (decodeTwins_twinned src sink base first) x hx

theorem decodeTie_malloc : (decodeTie src sink base first).Joins
    (Routine.within SelfRun.allocator hufMalloc)
    (Routine.within SelfRun.allocator hufMalloc) fun _ => True :=
  ObjectStates.tie_allocator DecodeState.states_lawful DecodeState.states_lawful
    (decodeTwins_twinned src sink base first) hufMalloc hufMalloc_endures

/-- The blocksize that a block declares. -/
theorem decodeTie_setBlocksize (blocksize : ℕ) : (decodeTie src sink base first).Joins
    (Routine.within DecodeRun.config (Routine.modify fun config => { config with blocksize }))
    (Routine.within DecodeRun.config (Routine.modify fun config => { config with blocksize }))
    fun _ => True where
  onward := by
    apply ObjectStates.tie_onward _ fun _ _ _ _ => trivial
    intro d' _ _ config _ _
    exact ⟨{ d' with config := config }, rfl, rfl⟩
  together := by
    rintro _ _ ⟨d, d', rfl, rfl, htwins⟩
    exact .value trivial ⟨{ d with config := { d.config with blocksize } },
      { d' with config := { d'.config with blocksize } }, rfl, rfl,
      { htwins with blocksize := rfl, length := htwins.length }⟩

theorem decodeTie_setLastNode (lastNode : Option ℕ) : (decodeTie src sink base first).Joins
    (Routine.within DecodeRun.self (Routine.modify fun self => { self with lastNode }))
    (Routine.within DecodeRun.self (Routine.modify fun self => { self with lastNode }))
    fun _ => True where
  onward := by
    apply ObjectStates.tie_onward _ fun _ _ _ _ => trivial
    rintro d' self _ _ ⟨⟩ ⟨⟩
    exact ⟨{ d' with lastNode := lastNode }, rfl, rfl⟩
  together := by
    rintro _ _ ⟨d, d', rfl, rfl, htwins⟩
    exact .value trivial ⟨{ d with lastNode := lastNode }, { d' with lastNode := lastNode }, rfl,
      rfl, { htwins with lastNode := rfl }⟩

/-- A read, which delivers the same bytes to both decoders or fails in both. -/
theorem decodeTie_read (buf : List UInt8) :
    (decodeTie src sink base first).Joins
      (Routine.within DecodeRun.bufioReader (hufBufioRead buf))
      (Routine.within DecodeRun.bufioReader (hufBufioRead buf)) fun _ => True where
  onward := by
    apply ObjectStates.tie_onward _ fun _ _ _ _ => trivial
    intro d' _ _ b _ _
    exact ⟨{ d' with reader := b }, rfl, rfl⟩
  together := by
    rintro _ _ ⟨d, d', rfl, rfl, htwins⟩
    rcases htwins.reading with ⟨total, rest, hreading, hreading'⟩
    by_cases hlen : buf.length ≤ rest.length
    · rcases hreading.read_ok buf hlen with ⟨b, hrun, h⟩
      rcases hreading'.read_ok buf hlen with ⟨b', hrun', h'⟩
      rw [DecodeState.within_reader hrun, DecodeState.within_reader hrun']
      exact .value trivial ⟨{ d with reader := b }, { d' with reader := b' }, rfl, rfl,
        { htwins with reading := ⟨_, _, h, h'⟩ }⟩
    · rcases hufBufioRead_error hreading.toReading buf (by omega) with ⟨b, hrun, -⟩
      rcases hufBufioRead_error hreading'.toReading buf (by omega) with ⟨b', hrun', -⟩
      rw [DecodeState.within_reader hrun, DecodeState.within_reader hrun']
      exact .error ⟨{ d with reader := b }, { d' with reader := b' }, rfl, rfl, htwins.writing⟩

theorem decodeTie_readUint8 (byte : UInt8) :
    (decodeTie src sink base first).Joins
      (Routine.within DecodeRun.bufioReader (hufBufioReadUint8 byte))
      (Routine.within DecodeRun.bufioReader (hufBufioReadUint8 byte)) fun _ => True where
  onward := by
    apply ObjectStates.tie_onward _ fun _ _ _ _ => trivial
    intro d' _ _ b _ _
    exact ⟨{ d' with reader := b }, rfl, rfl⟩
  together := by
    rintro _ _ ⟨d, d', rfl, rfl, htwins⟩
    rcases htwins.reading with ⟨total, _ | ⟨next, rest⟩, hreading, hreading'⟩
    · rcases hufBufioReadUint8_error hreading.toReading byte with ⟨b, hrun⟩
      rcases hufBufioReadUint8_error hreading'.toReading byte with ⟨b', hrun'⟩
      rw [DecodeState.within_reader hrun, DecodeState.within_reader hrun']
      exact .error ⟨{ d with reader := b }, { d' with reader := b' }, rfl, rfl, htwins.writing⟩
    · rcases hreading.readUint8_ok byte with ⟨b, hrun, h⟩
      rcases hreading'.readUint8_ok byte with ⟨b', hrun', h'⟩
      rw [DecodeState.within_reader hrun, DecodeState.within_reader hrun']
      exact .value trivial ⟨{ d with reader := b }, { d' with reader := b' }, rfl, rfl,
        { htwins with reading := ⟨_, _, h, h'⟩ }⟩

theorem decodeTie_writeUint8 (byte : UInt8) (hlimit : 1 ≤ sink.limit) :
    (decodeTie src sink base first).Joins
      (Routine.within DecodeRun.bufioWriter (hufBufioWriteUint8 byte))
      (Routine.within DecodeRun.bufioWriter (hufBufioWriteUint8 byte)) fun _ => True :=
  @ObjectStates.tie_write _ _ _ _ _ _ _ _ _ _ _ _ DecodeState.states_lawful
    DecodeState.states_lawful (decodeTwins_twinned src sink base first) [byte] hlimit

theorem decodeTie_flush : (decodeTie src sink base first).Joins
    (Routine.within DecodeRun.bufioWriter hufBufioReadWriterFlush)
    (Routine.within DecodeRun.bufioWriter hufBufioReadWriterFlush) fun _ => True :=
  ObjectStates.tie_flush DecodeState.states_lawful DecodeState.states_lawful
    (decodeTwins_twinned src sink base first)

/-! ## Reading an object -/

theorem decodeTie_config_bind {f : HufConfig ρ ω → CRoutine (DecodeRun ρ ω) α}
    {g : HufConfig Fifo Fifo → CRoutine (DecodeRun Fifo Fifo) α}
    (h : ∀ c c', c'.blocksize = c.blocksize → c'.length = c.length →
      (decodeTie src sink base first).Joins (f c) (g c') V) :
    (decodeTie src sink base first).Joins (Routine.within DecodeRun.config Routine.get >>= f)
      (Routine.within DecodeRun.config Routine.get >>= g) V := by
  apply Tie.Joins.read_bind fun c c' => c'.blocksize = c.blocksize ∧ c'.length = c.length
  · rintro _ _ ⟨d, d', rfl, rfl, htwins⟩
    exact ⟨_, _, rfl, rfl, rfl, rfl, htwins.blocksize, htwins.length⟩
  · exact DecodeRun.separate_config.store_load
  · exact fun c' => ⟨⟨c'.length, c'.blocksize, 0, 0, none, none⟩, rfl, rfl⟩
  · exact fun c c' hc => h c c' hc.1 hc.2

/-- A routine that goes on with the current node. -/
theorem decodeTie_self_bind {f : HufDecoder ρ ω → CRoutine (DecodeRun ρ ω) α}
    {g : HufDecoder Fifo Fifo → CRoutine (DecodeRun Fifo Fifo) α}
    (h : ∀ c c', c'.lastNode = c.lastNode →
      (decodeTie src sink base first).Joins (f c) (g c') V) :
    (decodeTie src sink base first).Joins (Routine.within DecodeRun.self Routine.get >>= f)
      (Routine.within DecodeRun.self Routine.get >>= g) V := by
  apply Tie.Joins.read_bind fun c c' => c'.lastNode = c.lastNode
  · rintro _ _ ⟨d, d', rfl, rfl, htwins⟩
    exact ⟨_, _, rfl, rfl, rfl, rfl, htwins.lastNode⟩
  · exact DecodeRun.separate_self.store_load
  · exact fun c' => ⟨⟨none, none, c'.lastNode, none, none⟩, rfl⟩
  · exact h

/-- A routine that goes on with the tree, of which it does not look at the heap. -/
theorem decodeTie_tree_bind {f : TreeStore → CRoutine (DecodeRun ρ ω) α}
    {g : TreeStore → CRoutine (DecodeRun Fifo Fifo) α}
    (h : ∀ t t', t'.tree = t.tree → (decodeTie src sink base first).Joins (f t) (g t') V) :
    (decodeTie src sink base first).Joins (Routine.within DecodeRun.huffmanTree Routine.get >>= f)
      (Routine.within DecodeRun.huffmanTree Routine.get >>= g) V := by
  apply Tie.Joins.read_bind fun t t' => t'.tree = t.tree
  · rintro _ _ ⟨d, d', rfl, rfl, htwins⟩
    have htree := congrArg TreeStore.tree htwins.tree
    exact ⟨_, _, rfl, rfl, rfl, rfl, htree⟩
  · intro s t hload
    rcases s with ⟨_ | ⟨config, _ | tree, lastNode, writer, reader⟩, world⟩ <;> cases hload
    rfl
  · exact fun t => ⟨t, rfl⟩
  · exact h

/-- A routine that goes on with the nodes of the heap. -/
theorem decodeTie_nodes_bind (world : World ρ ω) {f : DecodeRun ρ ω → CRoutine (DecodeRun ρ ω) α}
    {g : DecodeRun Fifo Fifo → CRoutine (DecodeRun Fifo Fifo) α}
    (h : ∀ s t, t.2.heap.deref = s.2.heap.deref →
      (decodeTie src sink base first).Joins (f s) (g t) V) :
    (decodeTie src sink base first).Joins (Routine.get >>= f) (Routine.get >>= g) V := by
  apply Tie.Joins.get_bind fun s t => t.2.heap.deref = s.2.heap.deref
  · rintro _ _ ⟨d, d', rfl, rfl, htwins⟩
    show d'.tree.heap.deref = d.tree.heap.deref
    rw [htwins.tree]
    rfl
  · exact fun t => ⟨(none, { world with heap := t.2.heap }), rfl⟩
  · exact h

/-! ## The routines of the decoder -/

/-- A deserialization into any tree follows itself without failures. -/
theorem hufTreeDeserialize_follows (buf : List Int16) (len : ℕ) :
    Endures (fun _ => True) (fun _ => True) (hufTreeDeserialize buf len) fun _ _ => True := by
  apply Endures.fix
  intro s₀ _
  apply Endures.bind (Q := fun _ _ => True)
  · apply (hufDeserializeTree_endures buf 0 len (show NodeSlot.Valid s₀ .root from trivial)).mono
    · rintro s rfl
      rfl
    · exact fun _ _ => trivial
    · exact fun _ _ _ => trivial
  · intro _
    exact Endures.pure fun _ _ => trivial

theorem decodeTie_decodeBit (world : World ρ ω) (bit : Bool) (hlimit : 1 ≤ sink.limit) :
    (decodeTie src sink base first).Joins (decodeBit bit) (decodeBit bit) fun _ => True := by
  apply decodeTie_nodes_bind world
  intro s t hheap
  apply decodeTie_self_bind
  intro c c' hlast
  rw [hheap, hlast]
  apply Tie.Joins.demand_bind
  intro node _
  apply (decodeTie_setLastNode _).bind
  intro _ _
  apply Tie.Joins.ite
  · exact fun _ => Tie.Joins.fail fun _ _ hb => decodeTie_failed _ hb
  intro _
  apply decodeTie_nodes_bind world
  intro s t hheap
  rw [hheap]
  apply Tie.Joins.demand_bind
  intro next _
  apply Tie.Joins.ite
  · exact fun _ => Tie.Joins.pure trivial
  intro _
  apply (decodeTie_writeUint8 _ hlimit).bind
  intro _ _
  apply decodeTie_tree_bind
  intro tree tree' htree
  rw [htree]
  apply (decodeTie_setLastNode _).bind
  intro _ _
  exact Tie.Joins.pure trivial

theorem decodeTie_decodeBits (world : World ρ ω) (byte : UInt8) (len n restored : ℕ)
    (hlimit : 1 ≤ sink.limit) :
    (decodeTie src sink base first).Joins (decodeBits byte len n restored)
      (decodeBits byte len n restored) fun _ => True := by
  induction n generalizing restored with
  | zero => exact Tie.Joins.pure trivial
  | succ n ih =>
      apply (decodeTie_decodeBit world _ hlimit).bind
      intro done _
      apply Tie.Joins.ite
      · intro _
        apply Tie.Joins.ite
        · exact fun _ => Tie.Joins.pure trivial
        · exact fun _ => ih _
      · exact fun _ => ih _

/-- The loop over the bytes of a payload. -/
theorem decodeTie_payload (world : World ρ ω) (len fuel : ℕ) (hlimit : 1 ≤ sink.limit) :
    (decodeTie src sink base first).Joins
      (Routine.whileLoop .endless (fun l : ℕ × UInt8 => pure (decide (l.1 < len)))
        (fun l => do
          let byte ← Routine.within DecodeRun.bufioReader (hufBufioReadUint8 l.2)
          let restored ← decodeBits byte len 8 l.1
          return .next (restored, byte)) fuel (0, 0))
      (Routine.whileLoop .endless (fun l : ℕ × UInt8 => pure (decide (l.1 < len)))
        (fun l => do
          let byte ← Routine.within DecodeRun.bufioReader (hufBufioReadUint8 l.2)
          let restored ← decodeBits byte len 8 l.1
          return .next (restored, byte)) fuel (0, 0)) fun _ => True := by
  apply Tie.Joins.whileLoop
  · exact fun _ _ => Tie.Joins.pure trivial
  · intro l _
    apply (decodeTie_readUint8 _).bind
    intro byte _
    apply (decodeTie_decodeBits world byte len 8 l.1 hlimit).bind
    intro restored _
    exact Tie.Joins.pure trivial
  · trivial

theorem decodeTie_decodeBlock (world : World ρ ω) (len : ℕ) (hlimit : 1 ≤ sink.limit) :
    (decodeTie src sink base first).Joins (hufDecodeBlock len) (hufDecodeBlock len)
      fun _ => True := by
  have hloop := (@decodeTie_payload _ _ src _ base first world len
    ((len + 1) * (hufBtreeLen + 1) + 1) hlimit).bind (W := fun _ => True)
      fun _ _ => Tie.Joins.pure (a := ()) trivial
  apply decodeTie_self_bind
  intro c c' hlast
  rw [hlast]
  apply Tie.Joins.ite
  · intro _
    apply decodeTie_tree_bind
    intro tree tree' htree
    rw [htree]
    apply (decodeTie_setLastNode _).bind
    intro _ _
    exact hloop
  · exact fun _ => hloop

theorem decodeTie_nextBlock (world : World ρ ω) (treeLength : Int16) (hlimit : 1 ≤ sink.limit) :
    (decodeTie src sink base first).Joins (decodeNextBlock treeLength)
      (decodeNextBlock treeLength) fun _ => True := by
  apply decodeTie_config_bind
  intro c c' hblocksize _
  rw [hblocksize]
  apply (decodeTie_read _).bind
  intro buf _
  apply (decodeTie_setBlocksize _).bind
  intro _ _
  apply (decodeTie_read _).bind
  intro buf _
  apply Tie.Joins.ite
  · exact fun _ => Tie.Joins.fail fun _ _ hb => decodeTie_failed _ hb
  intro _
  apply decodeTie_malloc.bind
  intro _ _
  apply (decodeTie_read _).bind
  intro treeHead _
  apply (decodeTie_tree _ fun t => ?_).bind
  · intro _ _
    apply decodeTie_config_bind
    intro c c' hblocksize _
    rw [hblocksize]
    apply (decodeTie_decodeBlock world _ hlimit).bind
    intro _ _
    apply (decodeTie_tree _ fun _ => hufTreeReset_endures.weaken fun _ _ _ => trivial).bind
    intro _ _
    apply (decodeTie_setLastNode none).bind
    intro _ _
    exact Tie.Joins.pure trivial
  · exact (hufTreeDeserialize_follows _ _).mono (fun _ _ => trivial) (fun _ _ => trivial)
      fun _ _ _ => trivial

/-- The test of the loop compares with the bytes delivered so far, which are the same. -/
theorem decodeTie_cond (treeLength : Int16) :
    (decodeTie src sink base first).Joins (blocksCond treeLength) (blocksCond treeLength)
      fun _ => True where
  together := by
    rintro _ _ ⟨d, d', rfl, rfl, htwins⟩
    rcases htwins.reading with ⟨total, rest, hreading, hreading'⟩
    have hcounted : d'.reader.bufio.haveBeenProcessed = d.reader.bufio.haveBeenProcessed := by
      have := hreading.counted
      have := hreading'.counted
      omega
    have hcond : blocksCond treeLength d'.run = .ok
        (.ok (decide (d.config.length > d.reader.bufio.haveBeenProcessed)), d'.run) := by
      rw [← htwins.length, ← hcounted]
      rfl
    rw [hcond]
    exact .value trivial ⟨d, d', rfl, rfl, htwins⟩
  onward := by
    rintro code s _ ⟨d', rfl, hwriting⟩
    refine ⟨fun _ _ hrun => ?_, fun _ _ hrun => by cases hrun⟩
    cases hrun
    exact ⟨trivial, d', rfl, hwriting⟩

theorem decodeTie_decodeBlocks (world : World ρ ω) (hlimit : 1 ≤ sink.limit) :
    (decodeTie src sink base first).Joins decodeBlocks decodeBlocks fun _ => True := by
  apply decodeTie_config_bind
  intro c c' _ hlength
  rw [hlength]
  apply Tie.Joins.bind (V := fun _ => True)
  · apply Tie.Joins.whileLoop
    · exact fun treeLength _ => decodeTie_cond treeLength
    · intro treeLength _
      apply (decodeTie_nextBlock world treeLength hlimit).bind
      intro treeLength _
      exact Tie.Joins.pure trivial
    · trivial
  · intro _ _
    exact decodeTie_flush

end

end LibHuffman
