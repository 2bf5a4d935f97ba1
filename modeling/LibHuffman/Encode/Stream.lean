/-
# Encoding a stream

`huf_encode` writes the encoded blocks of the input one after the other. What it
writes depends on the input and the blocksize alone: not on the buffers, and not on
what any block left behind.
-/

import LibHuffman.Encode.Block

namespace LibHuffman

open Foundation

variable {ρ ω : Type}

/-- The blocks of an input; with a blocksize of zero it is one block. -/
def blocksOf (blocksize : ℕ) (data : List UInt8) : List (List UInt8) :=
  cut (if blocksize = 0 then data.length else blocksize) data

/-- What the encoder writes for an input. -/
def encoded (blocksize : ℕ) (data : List UInt8) : List UInt8 :=
  (blocksOf blocksize data).flatMap encodedBlock

theorem encoded_nil (blocksize : ℕ) : encoded blocksize [] = [] := by
  simp [encoded, blocksOf, cut_nil]

/-- The condition of the loop of `huf_encode`. -/
def encodeCond (l : EncodeLocals) : CRoutine (EncodeRun ρ ω) Bool :=
  pure (decide (l.leftToRead > 0))

/-- How the loop may end with `rest` to be read and `written` accepted. -/
def EncodeLoopPost (src : Source ρ) (sink : Sink ω) (config : HufConfig ρ ω)
    (progress : List UInt8 × List UInt8)
    (outcome : Outcome Fault HufError (EncodeRun ρ ω) EncodeLocals) : Prop :=
  ((∀ block ∈ cut config.blocksize progress.1, Fits block) ∧
      ∃ l e, outcome = .ok (.ok l, e.run) ∧ Running src sink config []
        (progress.2 ++ (cut config.blocksize progress.1).flatMap encodedBlock) e) ∨
    (¬ ∀ block ∈ cut config.blocksize progress.1, Fits block) ∧ ∃ fault, outcome = .error fault

section

variable {src : Source ρ} {sink : Sink ω} {config : HufConfig ρ ω} {rest written : List UInt8}
  {e : EncodeState ρ ω} {l : EncodeLocals}

/-- The loop encodes the blocks of what is left. -/
theorem encodeLoop_eq (hrunning : Running src sink config rest written e)
    (hlocals : RunningLocals config.blocksize rest l)
    (hblocksize : rest ≠ [] → 0 < config.blocksize) (hlen : rest.length < 2 ^ 64) {fuel : ℕ}
    (hfuel : rest.length < fuel) :
    EncodeLoopPost src sink config (rest, written)
      (Routine.whileLoop .endless encodeCond encodeNextBlock fuel l e.run) := by
  refine Routine.whileLoop_rule
    (fun (progress : List UInt8 × List UInt8) n l s => n = progress.1.length ∧
      n < 2 ^ 64 ∧ (progress.1 ≠ [] → 0 < config.blocksize) ∧
      RunningLocals config.blocksize progress.1 l ∧
      ∃ e, s = e.run ∧ Running src sink config progress.1 progress.2 e)
    (EncodeLoopPost src sink config) ?_ hfuel
    ⟨rfl, hlen, hblocksize, hlocals, e, rfl, hrunning⟩
  rintro ⟨rest, written⟩ n l s next ⟨rfl, hlen, hblocksize, hlocals, e, rfl, hrunning⟩ hnext
  by_cases hrest : rest = []
  · subst hrest
    have hcond : encodeCond l e.run = .ok (.ok false, e.run) := by
      rw [encodeCond, hlocals.leftToRead]
      rfl
    rw [Routine.iteration_of_stop hcond]
    refine Or.inl ⟨fun block hblock => ?_, l, e, rfl, ?_⟩
    · rw [cut_nil] at hblock
      exact absurd hblock List.not_mem_nil
    · rw [cut_nil, List.flatMap_nil, List.append_nil]
      exact hrunning
  · have hpos := List.length_pos_iff.mpr hrest
    have hsize := hblocksize hrest
    have hcond : encodeCond l e.run = .ok (.ok true, e.run) := by
      rw [encodeCond, hlocals.leftToRead]
      exact congrArg (fun b => Except.ok (Except.ok b, e.run)) (decide_eq_true hpos)
    have hcut := cut_of_ne_nil hsize hrest
    rcases encodeNextBlock_eq hrunning hrest hlocals hsize hlen with
      ⟨hfits, fault, hfault⟩ | ⟨hfits, l', e', hrun, hlocals', hrunning'⟩
    · rw [Routine.iteration_of_fault hcond hfault]
      refine Or.inr ⟨fun hall => hfits (hall _ ?_), fault, rfl⟩
      rw [hcut]
      exact List.mem_cons_self
    · rw [Routine.iteration_of_next hcond hrun]
      have hlt : (rest.drop config.blocksize).length < rest.length := by
        simp only [List.length_drop]
        omega
      have hpost := hnext (rest.drop config.blocksize, written ++ encodedBlock
        (rest.take config.blocksize)) (rest.drop config.blocksize).length hlt l' e'.run
        ⟨rfl, Nat.lt_trans hlt hlen, fun _ => hsize, hlocals', e', rfl, hrunning'⟩
      have hall : (∀ block ∈ cut config.blocksize rest, Fits block) ↔
          ∀ block ∈ cut config.blocksize (rest.drop config.blocksize), Fits block := by
        rw [hcut, List.forall_mem_cons]
        exact and_iff_right hfits
      rw [EncodeLoopPost, hall]
      rw [EncodeLoopPost] at hpost
      rw [hcut, List.flatMap_cons, ← List.append_assoc]
      exact hpost

/-- A new encoder has everything before it. -/
theorem running_newEncoder (src : Source ρ) (sink : Sink ω) (config : HufConfig ρ ω)
    {world : World ρ ω} (halloc : world.heap.allocations = []) (hvalid : src.valid world.input) :
    Running src sink (wholeBlock config) (src.remaining world.input)
      (sink.content world.output)
      (newEncoder config src.readWriter sink.readWriter world) where
  config := rfl
  reading := reading_newBufio src _ hvalid
  writing := writing_newBufio sink.toFallibleSink _ _
  allocations := halloc
  holds := ⟨.nil, Heap.holds_none _⟩
  mapping := List.length_replicate ..
  reset _ := ⟨rfl, rfl, rfl⟩

/-- `huf_encode` writes the encoded blocks of its input if all of them fit, and
faults otherwise. -/
theorem hufEncode_eq (src : Source ρ) (sink : Sink ω) (config : HufConfig ρ ω)
    (world : World ρ ω) (hreader : config.reader = some src.readWriter)
    (hwriter : config.writer = some sink.readWriter) (halloc : world.heap.allocations = [])
    (hvalid : src.valid world.input) (hlength : config.length = (src.remaining world.input).length)
    (hlen : config.length < 2 ^ 64) :
    ((∀ block ∈ blocksOf config.blocksize (src.remaining world.input), Fits block) ∧
        ∃ world', hufEncode (some config) world = .ok (.ok (), world') ∧
          sink.content world'.output = sink.content world.output ++
            encoded config.blocksize (src.remaining world.input) ∧
          src.valid world'.input ∧ src.remaining world'.input = [] ∧
          world'.heap.allocations = []) ∨
      (¬ ∀ block ∈ blocksOf config.blocksize (src.remaining world.input), Fits block) ∧
        ∃ fault, hufEncode (some config) world = .error fault := by
  have hsize : (wholeBlock config).blocksize =
      if config.blocksize = 0 then (src.remaining world.input).length else config.blocksize := by
    rw [wholeBlock, hlength]
  have hpositive : src.remaining world.input ≠ [] → 0 < (wholeBlock config).blocksize := by
    intro hne
    have := List.length_pos_iff.mpr hne
    rw [hsize]
    split <;> omega
  let e := newEncoder config src.readWriter sink.readWriter world
  have hinit := hufEncoderInit_eq hreader hwriter halloc
  have hconfig : Routine.within EncodeRun.config Routine.get e.run =
      (.ok (.ok (wholeBlock config), e.run) :
        Outcome Fault HufError (EncodeRun ρ ω) (HufConfig ρ ω)) := EncodeState.within_config rfl
  have hmalloc : Routine.within SelfRun.allocator hufMalloc e.run = .ok (.ok (), e.run) :=
    SelfRun.within_allocator halloc rfl
  have hloop := encodeLoop_eq (running_newEncoder src sink config halloc hvalid)
    (l := ⟨List.replicate (wholeBlock config).blocksize 0, List.replicate hufBtreeLen 0,
      config.length⟩)
    ⟨List.length_replicate .., List.length_replicate .., hlength⟩ hpositive (hlength ▸ hlen)
    (show _ < config.length + 1 by omega)
  have hblocksOf : cut (wholeBlock config).blocksize (src.remaining world.input) =
      blocksOf config.blocksize (src.remaining world.input) := by
    rw [hsize, blocksOf]
  rw [EncodeLoopPost] at hloop
  dsimp only at hloop
  rw [hblocksOf] at hloop
  rcases hloop with ⟨hfits, l, e', hrun, hrunning⟩ | ⟨hfits, fault, hfault⟩
  · refine Or.inl ⟨hfits, ?_⟩
    obtain ⟨writer, hflush, hcontent⟩ := hufBufioReadWriterFlush_ok hrunning.writing
    obtain ⟨tree, hholds⟩ := hrunning.holds
    obtain ⟨heap, hfree, hheap⟩ :=
      hufEncoderFree_eq (e := { e' with writer }) hholds hrunning.mapping
    have hblocks : (do
        hufEncoderInit (some config)
        encodeBlocks : CRoutine (EncodeRun ρ ω) Unit) (none, world) =
        .ok (.ok (), ({ e' with writer } : EncodeState ρ ω).run) := by
      rw [Routine.bind_of_ok hinit, encodeBlocks, Routine.bind_of_ok hconfig,
        Routine.bind_of_ok hmalloc]
      exact (Routine.bind_of_ok hrun).trans (EncodeState.within_writer hflush)
    refine ⟨_, Routine.withLocal_of_ok (Routine.ensuring_of_ok hblocks hfree), hcontent,
      hrunning.reading.valid, ?_, hheap.trans hrunning.allocations⟩
    have hrest := hrunning.reading.rest
    rw [List.append_eq_nil_iff] at hrest
    exact hrest.2
  · refine Or.inr ⟨hfits, fault, ?_⟩
    have hblocks : (do
        hufEncoderInit (some config)
        encodeBlocks : CRoutine (EncodeRun ρ ω) Unit) (none, world) = .error fault := by
      rw [Routine.bind_of_ok hinit, encodeBlocks, Routine.bind_of_ok hconfig,
        Routine.bind_of_ok hmalloc]
      exact Routine.bind_of_fault hfault
    exact Routine.withLocal_of_fault (Routine.ensuring_of_fault hblocks)

end

end LibHuffman
