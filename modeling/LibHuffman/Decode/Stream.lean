/-
# The decoder refines the block reader

Between two blocks the tree is empty and no node is current; `decodeNextBlock`
reads one block from there as `readBlock` does, and `huf_decode` the whole input
as `readBlocks`. However a run ends, the decoder can be released, because the
heap holds the tree it was working with.
-/

import LibHuffman.Decode.Block

namespace LibHuffman

open Foundation

variable {ρ ω : Type}

/-! ## One block -/

/-- A decoder between two blocks. -/
structure Between (src : Source ρ) (sink : Sink ω) (total length : ℕ) (d : DecodeState ρ ω)
    (left written : List UInt8) : Prop where
  lastNode : d.lastNode = none
  root : d.tree.tree.root = none
  allocations : d.tree.heap.allocations = []
  declared : d.config.length = length
  writing : Writing sink.toFallibleSink d.writer written
  draining : Draining src total d.reader left

/-- What `decodeNextBlock` does after the length of the tree has been checked. -/
def decodeTree (treeLength : Int16) : CRoutine (DecodeRun ρ ω) Int16 := do
  let len := treeLength.toInt.toNat
  Routine.within SelfRun.allocator hufMalloc
  let treeHead ← Routine.within DecodeRun.bufioReader
    (hufBufioRead (List.replicate (len * 2) 0))
  Routine.within DecodeRun.huffmanTree (hufTreeDeserialize (bytesWords len treeHead) len)
  hufDecodeBlock (← Routine.within DecodeRun.config Routine.get).blocksize
  Routine.within DecodeRun.huffmanTree hufTreeReset
  Routine.within DecodeRun.self (Routine.modify fun self => { self with lastNode := none })
  return treeLength

/-- A decoder that can be released. -/
structure Releasable (d : DecodeState ρ ω) : Prop where
  holds : ∃ tree, d.tree.heap.Holds d.tree.tree.root tree
  allocations : d.tree.heap.allocations = []

/-- How the decoding of blocks ends, where reading them ends in the given way. -/
def BlocksEnd {α : Type} (src : Source ρ) (sink : Sink ω) (total length : ℕ)
    (written : List UInt8) (outcome : Outcome Fault HufError (DecodeRun ρ ω) α) : ReadEnd → Prop
  | .complete symbols rest => ∃ a d, outcome = .ok (.ok a, d.run) ∧
      Between src sink total length d rest (written ++ symbols)
  | .failed code => ∃ d, outcome = .ok (.error code, d.run) ∧ Releasable d
  | .crashed => outcome = .error .nullPointer

section

variable {src : Source ρ} {sink : Sink ω} {total length : ℕ} {d : DecodeState ρ ω}
  {left written : List UInt8}

theorem Between.releasable (h : Between src sink total length d left written) : Releasable d where
  holds := ⟨.nil, by rw [h.root]; exact d.tree.heap.holds_none⟩
  allocations := h.allocations

/-- After the header: the tree is read, the payload is decoded and the tree is
released. -/
theorem decodeTree_ends (h : Between src sink total length d left written) {count : ℕ}
    (hcount : d.config.blocksize = count) (treeLength : Int16)
    (hlen : treeLength.toInt.toNat ≤ hufBtreeLen) :
    BlocksEnd src sink total length written
      (decodeTree treeLength d.run)
      (if left.length < 2 * treeLength.toInt.toNat then .failed .readWrite
        else readPayload (denotedTree hufLeafNode (bytesWords treeLength.toInt.toNat
          (left.take (2 * treeLength.toInt.toNat)))) count
          (left.drop (2 * treeLength.toInt.toNat))) := by
  rw [decodeTree]
  set len := treeLength.toInt.toNat with hlenDef
  have hasked : (List.replicate (len * 2) (0 : UInt8)).length = 2 * len := by
    simp [Nat.mul_comm]
  rw [Routine.bind_of_ok (SelfRun.within_allocator h.allocations rfl)]
  by_cases hshort : left.length < 2 * len
  · rw [if_pos hshort]
    obtain ⟨reader, hread, -⟩ := hufBufioRead_error h.draining.toReading
      (List.replicate (len * 2) 0) (by rw [hasked]; exact hshort)
    rw [Routine.bind_of_error (DecodeState.within_reader hread)]
    exact ⟨_, rfl, h.releasable.holds, h.allocations⟩
  · rw [if_neg hshort]
    obtain ⟨reader, hread, hdraining⟩ := h.draining.read_ok
      (List.replicate (len * 2) 0) (by simp only [hasked]; omega)
    rw [hasked] at hread hdraining
    rw [Routine.bind_of_ok (DecodeState.within_reader hread)]
    obtain ⟨store, hrun, hholds, halloc⟩ :=
      hufTreeDeserialize_eq (bytesWords len (left.take (2 * len))) h.root h.allocations
    rw [length_bytesWords] at hrun
    rw [Routine.bind_of_ok (DecodeState.within_tree (d := { d with reader }) hrun)]
    set tree := denotedTree hufLeafNode (bytesWords len (left.take (2 * len))) with htree
    have hheight : tree.height ≤ hufBtreeLen := by
      have hnodes := numNodes_denotedTree_le hufLeafNode (bytesWords len (left.take (2 * len)))
      rw [← htree, length_bytesWords] at hnodes
      exact Nat.le_trans tree.height_le_numNodes (Nat.le_trans hnodes hlen)
    have hconfig : Routine.within DecodeRun.config Routine.get
        { d with reader, tree := store }.run =
        (.ok (.ok d.config, { d with reader, tree := store }.run) :
          Outcome Fault HufError (DecodeRun ρ ω) (HufConfig ρ ω)) := rfl
    rw [Routine.bind_of_ok hconfig, hcount]
    have hblock := hufDecodeBlock_ends count (d := { d with reader, tree := store })
      h.lastNode hholds hheight h.writing hdraining
    cases hread : readPayload tree count (left.drop (2 * len)) with
    | complete symbols rest =>
        rw [hread] at hblock
        rcases hblock with ⟨_, lastNode, writer, reader', hdecoded, hwriting, hdraining'⟩
        obtain ⟨heap, hreset, halloc'⟩ := hufTreeReset_eq hholds
        rw [Routine.bind_of_ok hdecoded, Routine.bind_of_ok (DecodeState.within_tree hreset),
          Routine.bind_of_ok (DecodeState.setLastNode _ none)]
        exact ⟨_, _, rfl, rfl, rfl, halloc'.trans halloc, h.declared, hwriting, hdraining'⟩
    | failed code =>
        rw [hread] at hblock
        rcases hblock with ⟨lastNode, writer, reader', hdecoded⟩
        rw [Routine.bind_of_error hdecoded]
        exact ⟨_, rfl, ⟨tree, hholds⟩, halloc⟩
    | crashed =>
        rw [hread] at hblock
        exact Routine.bind_of_fault hblock

/-- One block is decoded as it is read. -/
theorem decodeNextBlock_ends (h : Between src sink total length d left written)
    (treeLength : Int16) :
    BlocksEnd src sink total length written (decodeNextBlock treeLength d.run)
      (readBlock left) := by
  have hconfig : Routine.within DecodeRun.config Routine.get d.run =
      (.ok (.ok d.config, d.run) :
        Outcome Fault HufError (DecodeRun ρ ω) (HufConfig ρ ω)) := rfl
  rw [decodeNextBlock, Routine.bind_of_ok hconfig, readBlock]
  by_cases hcount : left.length < 8
  · obtain ⟨reader, hread, -⟩ := hufBufioRead_error h.draining.toReading
      (leBytes 8 d.config.blocksize) (by rw [length_leBytes]; exact hcount)
    rw [Routine.bind_of_error (DecodeState.within_reader hread), if_pos (by omega)]
    exact ⟨{ d with reader }, rfl, h.releasable.holds, h.allocations⟩
  obtain ⟨reader₁, hread₁, hdraining₁⟩ := h.draining.read_ok
    (leBytes 8 d.config.blocksize) (by simp only [length_leBytes]; omega)
  rw [length_leBytes] at hread₁ hdraining₁
  have hset : Routine.within DecodeRun.config
      (Routine.modify fun config : HufConfig ρ ω =>
        { config with blocksize := leNat (left.take 8) }) { d with reader := reader₁ }.run =
      (.ok (.ok (), { d with
          reader := reader₁
          config := { d.config with blocksize := leNat (left.take 8) } }.run) :
        Outcome Fault HufError (DecodeRun ρ ω) Unit) := rfl
  rw [Routine.bind_of_ok (DecodeState.within_reader hread₁), Routine.bind_of_ok hset]
  set d₁ : DecodeState ρ ω := { d with
    reader := reader₁
    config := { d.config with blocksize := leNat (left.take 8) } } with hd₁
  by_cases hheader : left.length < 10
  · obtain ⟨reader, hread, -⟩ := hufBufioRead_error hdraining₁.toReading
      (wordBytes treeLength) (by simp only [length_wordBytes, List.length_drop]; omega)
    rw [Routine.bind_of_error (DecodeState.within_reader (d := d₁) hread), if_pos hheader]
    exact ⟨{ d₁ with reader }, rfl, h.releasable.holds, h.allocations⟩
  obtain ⟨reader₂, hread₂, hdraining₂⟩ := hdraining₁.read_ok
    (wordBytes treeLength) (by simp only [length_wordBytes, List.length_drop]; omega)
  rw [length_wordBytes] at hread₂ hdraining₂
  rw [List.drop_drop] at hdraining₂
  rw [Routine.bind_of_ok (DecodeState.within_reader (d := d₁) hread₂), if_neg hheader]
  dsimp only
  by_cases hrange : (bytesWord ((left.drop 8).take 2)).toInt < 0 ∨
      (bytesWord ((left.drop 8).take 2)).toInt > hufBtreeLen
  · rw [if_pos hrange, if_pos hrange]
    exact ⟨{ d₁ with reader := reader₂ }, rfl, h.releasable.holds, h.allocations⟩
  · rw [if_neg hrange, if_neg hrange]
    have hbetween : Between src sink total length { d₁ with reader := reader₂ } (left.drop 10)
        written := ⟨h.lastNode, h.root, h.allocations, h.declared, h.writing, hdraining₂⟩
    have hends := decodeTree_ends hbetween (show _ = leNat (left.take 8) from rfl)
      (bytesWord ((left.drop 8).take 2)) (by omega)
    have hshort : (left.drop 10).length < 2 * (bytesWord ((left.drop 8).take 2)).toInt.toNat ↔
        left.length < 10 + 2 * (bytesWord ((left.drop 8).take 2)).toInt.toNat := by
      simp only [List.length_drop]
      omega
    rw [List.drop_drop] at hends
    simp only [hshort] at hends
    exact hends

end

/-! ## The whole input -/

/-- Symbols written before come first. -/
theorem BlocksEnd.after {α : Type} {src : Source ρ} {sink : Sink ω} {total length : ℕ}
    {written symbols : List UInt8} {outcome : Outcome Fault HufError (DecodeRun ρ ω) α}
    {e : ReadEnd} (h : BlocksEnd src sink total length (written ++ symbols) outcome e) :
    BlocksEnd src sink total length written outcome (e.after symbols) := by
  cases e with
  | complete later rest =>
      rcases h with ⟨a, d, hrun, hbetween⟩
      exact ⟨a, d, hrun, List.append_assoc .. ▸ hbetween⟩
  | failed code => exact h
  | crashed => exact h

/-- The condition of the loop of `huf_decode`. -/
def blocksCond (_ : Int16) : CRoutine (DecodeRun ρ ω) Bool := do
  let length := (← Routine.within DecodeRun.config Routine.get).length
  let reader := (← Routine.within DecodeRun.bufioReader Routine.get).bufio
  return decide (length > reader.haveBeenProcessed)

/-- The body of the loop. -/
def blocksBody (treeLength : Int16) : CRoutine (DecodeRun ρ ω) (LoopStep Int16) := do
  return .next (← decodeNextBlock treeLength)

/-- Where the loop over the blocks stands: the state of the decoder, what is left
of the input and what was written. -/
structure StreamState (ρ ω : Type) where
  decoder : DecodeState ρ ω
  left : List UInt8
  written : List UInt8

/-- The invariant of the loop over the blocks. The measure is what is left of the
declared length. -/
structure StreamInv (src : Source ρ) (sink : Sink ω) (total length : ℕ)
    (g : StreamState ρ ω) (n : ℕ) (_ : Int16) (s : DecodeRun ρ ω) : Prop where
  state : s = g.decoder.run
  between : Between src sink total length g.decoder g.left g.written
  measure : n = length - g.decoder.reader.bufio.haveBeenProcessed

section

variable {src : Source ρ} {sink : Sink ω} {total length : ℕ}

/-- The loop decodes blocks as `readBlocks` reads them. -/
theorem blocksLoop_ends {g : StreamState ρ ω} {n fuel : ℕ} (treeLength : Int16)
    {s : DecodeRun ρ ω} (hfuel : n < fuel)
    (hinv : StreamInv src sink total length g n treeLength s) :
    BlocksEnd src sink total length g.written
      (Routine.whileLoop .endless blocksCond blocksBody fuel treeLength s)
      (readBlocks (length - g.decoder.reader.bufio.haveBeenProcessed) g.left) := by
  refine Routine.whileLoop_rule (StreamInv src sink total length)
    (fun g outcome => BlocksEnd src sink total length g.written outcome
      (readBlocks (length - g.decoder.reader.bufio.haveBeenProcessed) g.left)) ?_ hfuel hinv
  rintro ⟨d, left, written⟩ n treeLength s next ⟨rfl, hbetween, hmeasure⟩ hnext
  dsimp only at hbetween hmeasure ⊢
  have hcond : blocksCond treeLength d.run =
      .ok (.ok (decide (length > d.reader.bufio.haveBeenProcessed)), d.run) := by
    rw [← hbetween.declared]
    rfl
  rw [readBlocks]
  by_cases hdone : length - d.reader.bufio.haveBeenProcessed = 0
  · rw [decide_eq_false (by omega)] at hcond
    rw [if_pos hdone, Routine.iteration_of_stop hcond]
    exact ⟨treeLength, d, rfl, by rw [List.append_nil]; exact hbetween⟩
  · rw [decide_eq_true (by omega)] at hcond
    rw [if_neg hdone]
    have hblock := decodeNextBlock_ends hbetween treeLength
    split
    · rename_i symbols rest hread
      rw [hread] at hblock
      rcases hblock with ⟨treeLength', d', hrun, hbetween'⟩
      rw [Routine.iteration_of_next hcond (Routine.bind_of_ok hrun)]
      have hshorter := (readBlock_rest hread).2
      have hcounted := hbetween.draining.counted
      have hcounted' := hbetween'.draining.counted
      have hleft : length - d'.reader.bufio.haveBeenProcessed =
          length - d.reader.bufio.haveBeenProcessed - (left.length - rest.length) := by omega
      rw [← hleft]
      exact BlocksEnd.after (hnext ⟨d', rest, written ++ symbols⟩
        (length - d'.reader.bufio.haveBeenProcessed) (by omega) treeLength' _
        ⟨rfl, hbetween', rfl⟩)
    · rename_i code hread
      rw [hread] at hblock
      rcases hblock with ⟨d', hrun, hreleasable⟩
      exact ⟨d', Routine.iteration_of_error hcond (Routine.bind_of_error hrun), hreleasable⟩
    · rename_i hread
      rw [hread] at hblock
      exact Routine.iteration_of_fault hcond (Routine.bind_of_fault hblock)

end

/-- How `huf_decode` ends, where reading its input ends in the given way: with
everything written, with the error code, or by following a null pointer. -/
def DecodeResult (src : Source ρ) (sink : Sink ω) (world : World ρ ω)
    (outcome : Outcome Fault HufError (World ρ ω) Unit) : ReadEnd → Prop
  | .complete symbols rest => ∃ world', outcome = .ok (.ok (), world') ∧
      sink.content world'.output = sink.content world.output ++ symbols ∧
      src.valid world'.input ∧ src.remaining world'.input <:+ rest ∧
      world'.heap.allocations = []
  | .failed code => ∃ world', outcome = .ok (.error code, world')
  | .crashed => outcome = .error .nullPointer

/-- For every source, sink and configuration, `huf_decode` ends as reading the
blocks of its input does. -/
theorem hufDecode_ends (src : Source ρ) (sink : Sink ω) (config : HufConfig ρ ω)
    (world : World ρ ω) (hreader : config.reader = some src.readWriter)
    (hwriter : config.writer = some sink.readWriter)
    (halloc : world.heap.allocations = []) (hvalid : src.valid world.input) :
    DecodeResult src sink world (hufDecode (some config) world)
      (readBlocks config.length (src.remaining world.input)) := by
  have hinit := hufDecoderInit_eq hreader hwriter halloc
  set d := newDecoder config src.readWriter sink.readWriter world with hd
  have hbetween : Between src sink (src.remaining world.input).length config.length d
      (src.remaining world.input) (sink.content world.output) :=
    ⟨rfl, rfl, halloc, rfl, writing_newBufio sink.toFallibleSink _ _,
      reading_newBufio src _ hvalid, Nat.zero_add _⟩
  have hloop := blocksLoop_ends 0 (g := ⟨d, src.remaining world.input, sink.content world.output⟩)
    (Nat.lt_succ_self config.length) ⟨rfl, hbetween, rfl⟩
  have hstart : decodeBlocks d.run =
      (Routine.whileLoop .endless blocksCond blocksBody (config.length + 1) (0 : Int16) >>=
        fun _ => Routine.within DecodeRun.bufioWriter hufBufioReadWriterFlush) d.run := rfl
  dsimp only at hloop
  rw [show config.length - d.reader.bufio.haveBeenProcessed = config.length from Nat.sub_zero _]
    at hloop
  cases hread : readBlocks config.length (src.remaining world.input) with
  | complete symbols rest =>
      rw [hread] at hloop
      rcases hloop with ⟨treeLength, d', hrun, hbetween'⟩
      obtain ⟨writer, hflush, hcontent⟩ := hufBufioReadWriterFlush_ok hbetween'.writing
      obtain ⟨tree, hholds⟩ := hbetween'.releasable.holds
      obtain ⟨heap, hfree, hallocs⟩ := hufDecoderFree_eq (d := { d' with writer }) hholds
      refine ⟨_, Routine.withLocal_of_ok (Routine.ensuring_of_ok ?_ hfree), hcontent,
        hbetween'.draining.valid, ?_, hallocs.trans hbetween'.allocations⟩
      · rw [Routine.bind_of_ok hinit, hstart, Routine.bind_of_ok hrun]
        exact DecodeState.within_writer hflush
      · exact ⟨_, hbetween'.draining.rest⟩
  | failed code =>
      rw [hread] at hloop
      rcases hloop with ⟨d', hrun, ⟨tree, hholds⟩, -⟩
      obtain ⟨heap, hfree, -⟩ := hufDecoderFree_eq hholds
      refine ⟨_, Routine.withLocal_of_ok (Routine.ensuring_of_ok ?_ hfree)⟩
      rw [Routine.bind_of_ok hinit, hstart]
      exact Routine.bind_of_error hrun
  | crashed =>
      rw [hread] at hloop
      refine Routine.withLocal_of_fault (Routine.ensuring_of_fault ?_)
      rw [Routine.bind_of_ok hinit, hstart]
      exact Routine.bind_of_fault hloop

end LibHuffman
