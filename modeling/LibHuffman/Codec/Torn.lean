/-
# Torn archives

An encoder that is stopped, by a failed allocation or by a write that was refused or done in
part, leaves the beginning of what it would have written. The decoder takes such a torn
archive for what it is. It returns success only where the archive ends between two blocks,
reports a short read everywhere else, and writes nothing but the beginning of the data, of
which it withholds at most what its own buffer holds.
-/

import LibHuffman.Codec.Independence
import LibHuffman.Decode.Failure
import LibHuffman.Refinement.Streams

namespace LibHuffman

open Foundation Allocating

variable {ρ ω ρ' ω' : Type}

/-- A call that fails has kept what its output held. -/
theorem hufDecode_keeps {src : Source ρ} {sink : Sink ω} (config : HufConfig ρ ω)
    (world : World ρ ω) (hreader : config.reader = some src.readWriter)
    (hwriter : config.writer = some sink.readWriter) (halloc : world.heap.allocations = [])
    (hvalid : src.valid world.input) {code : HufError}
    (hfailed : readBlocks config.length (src.remaining world.input) = .failed code)
    {r : Except HufError Unit} {world' : World ρ ω}
    (hrun : hufDecode (some config) world = .ok (r, world')) :
    sink.content world.output <+: sink.content world'.output := by
  have hready : Ready 5 (some config) world :=
    ⟨config, rfl, by simp [hreader], by simp [hwriter], by simp [halloc, Granted]⟩
  have hpartial := hufDecode_partial src
    (sink.toFallibleSink.toPartialSink (max 1 config.writerBufferSize)) config world hreader
    hwriter hready hvalid trivial (Nat.le_max_left _ _) (Nat.le_max_right _ _)
  rw [hfailed] at hpartial
  rcases hpartial with ⟨code', world'', ideal, hrun', -, -, hkept, -⟩
  cases hrun.symm.trans hrun'
  exact hkept

/-- What `huf_decode` has written when it fails is what was restored before the fault, up to
as many symbols as its buffer can hold. -/
theorem hufDecode_leaves (src : Source ρ) (sink : Sink ω) (config : HufConfig ρ ω)
    (world : World ρ ω) (hreader : config.reader = some src.readWriter)
    (hwriter : config.writer = some sink.readWriter) (halloc : world.heap.allocations = [])
    (hvalid : src.valid world.input) {code : HufError}
    (hfailed : readBlocks config.length (src.remaining world.input) = .failed code) :
    ∃ world' written lost, hufDecode (some config) world = .ok (.error code, world') ∧
      sink.content world'.output = sink.content world.output ++ written ∧
      written ++ lost = restored config.length (src.remaining world.input) ∧
      lost.length ≤ config.writerBufferSize := by
  have hinit := hufDecoderInit_eq hreader hwriter halloc
  set d := newDecoder config src.readWriter sink.readWriter world with hd
  have hends := hufDecode_ends src sink config world hreader hwriter halloc hvalid
  rw [hfailed] at hends
  rcases hends with ⟨world', hrun⟩
  rcases Routine.withLocal_eq_ok hrun with ⟨last, hrun'⟩
  rcases Routine.ensuring_eq_ok hrun' with ⟨s, q, hbody, hfree⟩
  rw [Routine.bind_of_ok hinit] at hbody
  have hbetween : Between src sink (src.remaining world.input).length config.length d
      (src.remaining world.input) (sink.content world.output) :=
    ⟨rfl, rfl, halloc, rfl, writing_newBufio sink.toFallibleSink _ _,
      reading_newBufio src _ hvalid, Nat.zero_add _⟩
  have hleaves : LeavesWith sink (sink.content world.output ++
      restored config.length (src.remaining world.input)) code (decodeBlocks d.run) := by
    have hstart : decodeBlocks d.run =
        (Routine.whileLoop .endless blocksCond blocksBody (config.length + 1) (0 : Int16) >>=
          fun _ => Routine.within DecodeRun.bufioWriter hufBufioReadWriterFlush) d.run := rfl
    rw [hstart]
    apply LeavesWith.bind
    exact @blocksLoop_leaves _ _ src sink (src.remaining world.input).length config.length code
      ⟨d, src.remaining world.input, sink.content world.output⟩ config.length (config.length + 1) 0
      d.run (Nat.lt_succ_self _) ⟨rfl, hbetween, rfl⟩ hfailed
  rcases hleaves with ⟨d', hleft, hwriting⟩
  have hsame : s = d'.run := congrArg Prod.snd (Except.ok.inj (hbody.symm.trans hleft))
  have hcapacity : d'.writer.bufio.capacity = config.writerBufferSize :=
    Option.some.inj (decodeBlocks_keepsCapacity.of_ok hleft)
  have houtput : world'.output = d'.writer.stream := by
    rw [hufDecoderFree_keepsOutput.of_ok hfree, hsame]
    rfl
  have hcontent := hwriting.content
  rw [← houtput] at hcontent
  rcases hufDecode_keeps config world hreader hwriter halloc hvalid hfailed hrun with
    ⟨written, hwritten⟩
  rw [← hwritten, List.append_assoc, List.append_right_inj] at hcontent
  refine ⟨world', written, d'.writer.bufio.bytes.take d'.writer.bufio.length, hrun, hwritten.symm,
    hcontent, ?_⟩
  rw [← hcapacity]
  exact (List.length_take_le _ _).trans hwriting.length_le

/-- The first fault of an input decides the code that `huf_decode` fails with, and what is
written before: the symbols of the blocks and walks in front of it, without the last ones as
far as the buffer of the writer holds them. -/
theorem hufDecode_fault (src : Source ρ) (sink : Sink ω) (config : HufConfig ρ ω)
    (world : World ρ ω) (hreader : config.reader = some src.readWriter)
    (hwriter : config.writer = some sink.readWriter) (halloc : world.heap.allocations = [])
    (hvalid : src.valid world.input) {front rest symbols found : List UInt8} {code : HufError}
    (hcontent : src.remaining world.input = front ++ rest) (hfront : Blocks front symbols)
    (hlength : front.length < config.length) (hfault : BlockFaultAfter rest code found) :
    ∃ world' written lost, hufDecode (some config) world = .ok (.error code, world') ∧
      sink.content world'.output = sink.content world.output ++ written ∧
      written ++ lost = symbols ++ found ∧ lost.length ≤ config.writerBufferSize := by
  rcases hfault.read with ⟨hread, hfound⟩
  have hleft : config.length - front.length ≠ 0 := by omega
  have hfailed : readBlocks config.length (src.remaining world.input) = .failed code := by
    rw [hcontent, readBlocks_append hfront hlength.le, readBlocks_of_failed hleft hread]
    rfl
  have hrestored : restored config.length (src.remaining world.input) = symbols ++ found := by
    rw [hcontent, restored_append hfront hlength.le,
      restored_of_incomplete hleft (by simp [hread]), hfound]
  rw [← hrestored]
  exact hufDecode_leaves src sink config world hreader hwriter halloc hvalid hfailed

/-- A block of one symbol, and a block of nine that ends behind the walks of eight. The
buffer of the writer may withhold four symbols. -/
theorem hufDecode_fault_nine :
    let front : List UInt8 :=
      [1, 0, 0, 0, 0, 0, 0, 0, 5, 0, 0, 1, 49, 0, 255, 255, 255, 255, 255, 255, 0]
    let rest : List UInt8 :=
      [9, 0, 0, 0, 0, 0, 0, 0, 5, 0, 0, 1, 50, 0, 255, 255, 255, 255, 255, 255, 0]
    ∃ world' written lost, hufDecode (some (fifoConfig 42 3 4)) (fifoWorld (front ++ rest)) =
        .ok (.error .readWrite, world') ∧ world'.output.stored = [] ++ written ∧
      written ++ lost = [49] ++ [50, 50, 50, 50, 50, 50, 50, 50] ∧ lost.length ≤ 4 := by
  intro front rest
  have hfront : Blocks front [49] := blocks_of_readBlock (by decide)
  have htree : denotedTree hufLeafNode [256, 50, -1, -1, -1] ≠ .nil := by decide
  have hstarves : Starves (denotedTree hufLeafNode [256, 50, -1, -1, -1]) 9 (bytesBits [0])
      (List.replicate 8 50) := by
    apply scanBytes_pending_iff.mp
    exact ⟨1, denotedTree hufLeafNode [256, 50, -1, -1, -1], rfl⟩
  have hfault : BlockFaultAfter rest .readWrite [50, 50, 50, 50, 50, 50, 50, 50] :=
    .starved (by decide) (by decide) htree hstarves
  exact hufDecode_fault Fifo.source Fifo.sink (fifoConfig 42 3 4) (fifoWorld (front ++ rest)) rfl
    rfl rfl trivial rfl hfront (by decide) hfault

/-- How decoding ends that has been given the beginning `content` of some blocks, with
`written` on the output and a buffer of the given size. -/
inductive TornEnd (content written : List UInt8) (bufferSize : ℕ) : Except HufError Unit → Prop
  /-- The content is blocks, and everything in it was written. -/
  | whole (hblocks : Blocks content written) : TornEnd content written bufferSize (.ok ())
  /-- The content ends inside a block. What is missing from the blocks before it has not
  left the buffer. -/
  | torn (hinside : ∀ symbols, ¬ Blocks content symbols)
      (hwhole : ∀ front symbols, front <+: content → Blocks front symbols →
        symbols.length ≤ written.length + bufferSize) :
      TornEnd content written bufferSize (.error .readWrite)

/-- Blocks that the content starts with are written, up to what the buffer holds. -/
theorem TornEnd.length_le {content written front symbols : List UInt8} {bufferSize : ℕ}
    {r : Except HufError Unit} (h : TornEnd content written bufferSize r)
    (hfront : front <+: content) (hblocks : Blocks front symbols) :
    symbols.length ≤ written.length + bufferSize := by
  cases h with
  | torn _ hwhole => exact hwhole front symbols hfront hblocks
  | whole hcontent =>
      rcases hfront with ⟨rest, rfl⟩
      have hrestored := restored_of_blocks hcontent
      rw [restored_append hblocks (by simp)] at hrestored
      rw [← hrestored, List.length_append, Nat.add_assoc]
      exact Nat.le_add_right _ _

/-! ## Interrupted encoders -/

/-- The whole blocks of an input are as small as all of its blocks. -/
theorem SmallTrees.front {blocksize : ℕ} {front rest : List UInt8} (hpos : 0 < blocksize)
    (hfront : blocksize ∣ front.length) (h : SmallTrees blocksize (front ++ rest)) :
    SmallTrees blocksize front := by
  intro block hblock
  apply h
  rw [blocksOf_of_pos hpos] at hblock ⊢
  rw [cut_append hpos hfront]
  exact List.mem_append_left _ hblock

end LibHuffman
