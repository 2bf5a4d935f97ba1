/-
# What the decoder has written when it fails

A decoder that leaves with an error code does not flush its writer. Its writer has accepted
the symbols that were restored before the fault, and what the writer still holds is lost. The
steps follow those of a run that succeeds: the bits, the bytes, a block, all blocks.
-/

import LibHuffman.Decode.Stream
import LibHuffman.Format.Restored
import LibHuffman.Foundation.Triple

namespace LibHuffman

open Foundation

variable {ρ ω : Type}

/-- A decoder that leaves with a code after its writer has accepted `written`. -/
def LeavesWith {α : Type} (sink : Sink ω) (written : List UInt8) (code : HufError)
    (outcome : Outcome Fault HufError (DecodeRun ρ ω) α) : Prop :=
  ∃ d : DecodeState ρ ω, outcome = .ok (.error code, d.run) ∧
    Writing sink.toFallibleSink d.writer written

section

variable {src : Source ρ} {sink : Sink ω} {total length len : ℕ} {tree : BinaryTree Int16}
  {d : DecodeState ρ ω} {left rest written : List UInt8} {code : HufError}

theorem LeavesWith.bind {α β : Type} {x : CRoutine (DecodeRun ρ ω) α}
    {f : α → CRoutine (DecodeRun ρ ω) β} {s : DecodeRun ρ ω}
    (h : LeavesWith sink written code (x s)) : LeavesWith sink written code ((x >>= f) s) := by
  rcases h with ⟨d, hrun, hwriting⟩
  exact ⟨d, Routine.bind_of_error hrun, hwriting⟩

/-! ## A payload -/

theorem scanEnd_failed_after {symbols : List Int16} {s : Scan Int16 UInt8}
    (h : scanEnd (s.after symbols) = .failed code) : scanEnd s = .failed code := by
  rw [scanEnd_after] at h
  cases hends : scanEnd s with
  | complete later rest => rw [hends] at h; cases h
  | failed code' => rw [hends] at h; exact h
  | crashed => rw [hends] at h; cases h

/-- At the end of the input the byte loop fails. -/
theorem payloadBody_of_end (hdraining : Draining src total d.reader []) (locals : ℕ × UInt8) :
    ∃ reader, payloadBody len locals d.run = .ok (.error .readWrite, { d with reader }.run) := by
  rcases hufBufioReadUint8_error hdraining.toReading locals.2 with ⟨reader, hread⟩
  exact ⟨reader, Routine.bind_of_error (DecodeState.within_reader hread)⟩

/-- The byte loop that fails has written the symbols that were found. -/
theorem payloadLoop_leaves (htree : tree ≠ .nil) {g : PayloadState ρ ω} {n fuel : ℕ}
    {locals : ℕ × UInt8} {s : DecodeRun ρ ω} (hfuel : n < fuel)
    (hinv : PayloadInv src sink total len tree g n locals s)
    (hfailed : scanEnd (scanBytes tree g.cur g.need g.rest) = .failed code) :
    LeavesWith sink (g.written ++ (scanBytes tree g.cur g.need g.rest).symbols.map indexByte) code
      (payloadLoop len fuel locals s) := by
  revert hfailed
  refine Routine.whileLoop_rule (PayloadInv src sink total len tree)
    (fun g outcome => scanEnd (scanBytes tree g.cur g.need g.rest) = .failed code →
      LeavesWith sink (g.written ++ (scanBytes tree g.cur g.need g.rest).symbols.map indexByte)
        code outcome) ?_ hfuel hinv
  rintro ⟨d, cur, need, rest, written⟩ n ⟨restored, byte⟩ s next
    ⟨rfl, hneed, ⟨rootCells, hroot⟩, hcur, ⟨cells, hat⟩, hwriting, hdraining, hmeasure⟩ hnext
    hfailed
  dsimp only at hneed hroot hcur hat hwriting hdraining hmeasure hfailed ⊢
  cases need with
  | zero =>
      rw [scanBytes_zero] at hfailed
      cases hfailed
  | succ need =>
      have hcond : payloadCond len (restored, byte) d.run = .ok (.ok true, d.run) := by
        rw [payloadCond, decide_eq_true (by omega)]
        rfl
      cases rest with
      | nil =>
          cases hfailed
          rcases payloadBody_of_end hdraining (restored, byte) with ⟨reader, hbody⟩
          refine ⟨{ d with reader }, Routine.iteration_of_error hcond hbody, ?_⟩
          rw [scanBytes, Scan.symbols, List.map_nil, List.append_nil]
          exact hwriting
      | cons b rest =>
          rcases hdraining.readUint8_ok byte with ⟨reader, hread, hdraining'⟩
          have hrestored : restored < len := by omega
          have hbits := decodeBits_eq (d := { d with reader }) hroot htree b 8 hrestored hat hcur
            hwriting
          rw [show len - restored = need + 1 by omega, ← byteBits] at hbits
          rw [scanBytes] at hfailed ⊢
          cases hscan : scan tree cur (need + 1) (byteBits b) with
          | finished symbols unused =>
              rw [hscan] at hfailed
              cases hfailed
          | stuck symbols =>
              rw [hscan] at hbits hfailed
              cases hfailed
              rcases hbits with ⟨lastNode, writer, hrun, hwriting'⟩
              have hbody := (payloadBody_of_read hread restored).trans (Routine.bind_of_error hrun)
              exact ⟨_, Routine.iteration_of_error hcond hbody, hwriting'⟩
          | pending symbols need' cur' =>
              rw [hscan] at hbits hfailed
              rcases hbits with ⟨lastNode, writer, cells', hrun, hat', hwriting'⟩
              rcases scan_progress hscan with ⟨hcount, hprogress⟩
              rcases scan_pending_ne_nil htree hcur hscan with ⟨hcur', hneed'⟩
              rw [length_byteBits] at hprogress
              rw [Routine.iteration_of_next hcond
                ((payloadBody_of_read hread restored).trans (Routine.bind_of_ok hrun))]
              have hlater := hnext ⟨{ d with lastNode, writer, reader }, cur', need', rest,
                written ++ symbols.map indexByte⟩ (need' * (tree.height + 1) + cur'.height)
                (by omega) (len - need', b) _
                ⟨rfl, by dsimp only; omega, ⟨rootCells, hroot⟩, hcur', ⟨cells', hat'⟩, hwriting',
                  hdraining', rfl⟩ (scanEnd_failed_after hfailed)
              dsimp only at hlater ⊢
              rwa [Scan.symbols_after, List.map_append, ← List.append_assoc]

/-- A block starts its byte loop at the root. -/
theorem hufDecodeBlock_start (hnew : d.lastNode = none) (len : ℕ) :
    hufDecodeBlock len d.run =
      (payloadLoop len ((len + 1) * (hufBtreeLen + 1) + 1) (0, 0) >>= fun _ => pure ())
        { d with lastNode := d.tree.tree.root }.run := by
  rw [hufDecodeBlock, DecodeState.self_get_bind]
  dsimp only
  rw [if_pos hnew, DecodeState.tree_get_bind, Routine.bind_of_ok (DecodeState.setLastNode d _)]
  rfl

/-- A block that fails has written the symbols of its payload that were restored. -/
theorem hufDecodeBlock_leaves (hnew : d.lastNode = none)
    (hroot : d.tree.heap.Holds d.tree.tree.root tree) (hheight : tree.height ≤ hufBtreeLen)
    (hwriting : Writing sink.toFallibleSink d.writer written)
    (hdraining : Draining src total d.reader rest)
    (hfailed : readPayload tree len rest = .failed code) :
    LeavesWith sink (written ++ payloadRestored tree len rest) code (hufDecodeBlock len d.run) := by
  rcases hroot with ⟨cells, hat, -, -⟩
  rw [hufDecodeBlock_start hnew]
  apply LeavesWith.bind
  rw [readPayload] at hfailed
  rw [payloadRestored]
  by_cases hlen : len = 0
  · rw [if_pos hlen] at hfailed
    cases hfailed
  by_cases hempty : tree = .nil
  · rw [if_neg hlen, if_pos hempty] at hfailed
    split at hfailed
    · -- without a tree the loop fails at its first byte, which is not there
      rename_i hend
      cases hfailed
      subst hend
      have hcond : payloadCond len (0, 0) { d with lastNode := d.tree.tree.root }.run =
          .ok (.ok true, { d with lastNode := d.tree.tree.root }.run) := by
        rw [payloadCond, decide_eq_true (Nat.pos_of_ne_zero hlen)]
        rfl
      rcases payloadBody_of_end (d := { d with lastNode := d.tree.tree.root }) hdraining (0, 0)
        with ⟨reader, hbody⟩
      refine ⟨_, Routine.iteration_of_error hcond hbody, ?_⟩
      rw [if_pos (.inr hempty), List.append_nil]
      exact hwriting
    · cases hfailed
  · rw [if_neg hlen, if_neg hempty] at hfailed
    rw [if_neg (not_or.mpr ⟨hlen, hempty⟩)]
    have hmul : len * (tree.height + 1) ≤ len * (hufBtreeLen + 1) :=
      Nat.mul_le_mul_left len (by omega)
    have hfuel : len * (tree.height + 1) + tree.height < (len + 1) * (hufBtreeLen + 1) + 1 := by
      rw [Nat.succ_mul]
      omega
    exact payloadLoop_leaves hempty
      (g := ⟨{ d with lastNode := d.tree.tree.root }, tree, len, rest, written⟩) hfuel
      ⟨rfl, Nat.zero_add len, ⟨cells, hat⟩, hempty, ⟨cells, hat⟩, hwriting, hdraining, rfl⟩ hfailed

/-! ## One block -/

/-- Behind a header that is in order, a failure is one of the words or of the payload. -/
theorem decodeTree_leaves (h : Between src sink total length d left written) {count : ℕ}
    (hcount : d.config.blocksize = count) (treeLength : Int16)
    (hlen : treeLength.toInt.toNat ≤ hufBtreeLen)
    (hfailed : (if left.length < 2 * treeLength.toInt.toNat then .failed .readWrite
      else readPayload (denotedTree hufLeafNode (bytesWords treeLength.toInt.toNat
        (left.take (2 * treeLength.toInt.toNat)))) count
        (left.drop (2 * treeLength.toInt.toNat))) = ReadEnd.failed code) :
    LeavesWith sink (written ++ if left.length < 2 * treeLength.toInt.toNat then []
      else payloadRestored (denotedTree hufLeafNode (bytesWords treeLength.toInt.toNat
        (left.take (2 * treeLength.toInt.toNat)))) count
        (left.drop (2 * treeLength.toInt.toNat))) code (decodeTree treeLength d.run) := by
  rw [decodeTree]
  set len := treeLength.toInt.toNat with hlenDef
  have hasked : (List.replicate (len * 2) (0 : UInt8)).length = 2 * len := by
    simp [Nat.mul_comm]
  rw [Routine.bind_of_ok (SelfRun.within_allocator h.allocations rfl)]
  by_cases hshort : left.length < 2 * len
  · rw [if_pos hshort] at hfailed ⊢
    cases hfailed
    rcases hufBufioRead_error h.draining.toReading (List.replicate (len * 2) 0)
      (by rw [hasked]; exact hshort) with ⟨reader, hread, -⟩
    apply LeavesWith.bind
    refine ⟨{ d with reader }, DecodeState.within_reader hread, ?_⟩
    rw [List.append_nil]
    exact h.writing
  · rw [if_neg hshort] at hfailed ⊢
    rcases h.draining.read_ok (List.replicate (len * 2) 0) (by simp only [hasked]; omega) with
      ⟨reader, hread, hdraining⟩
    rw [hasked] at hread hdraining
    rw [Routine.bind_of_ok (DecodeState.within_reader hread)]
    rcases hufTreeDeserialize_eq (bytesWords len (left.take (2 * len))) h.root h.allocations with
      ⟨store, hrun, hholds, -⟩
    rw [length_bytesWords] at hrun
    rw [Routine.bind_of_ok (DecodeState.within_tree (d := { d with reader }) hrun)]
    have hheight : (denotedTree hufLeafNode (bytesWords len (left.take (2 * len)))).height ≤
        hufBtreeLen := by
      have hnodes := numNodes_denotedTree_le hufLeafNode (bytesWords len (left.take (2 * len)))
      rw [length_bytesWords] at hnodes
      exact (BinaryTree.height_le_numNodes _).trans (hnodes.trans hlen)
    have hconfig : Routine.within DecodeRun.config Routine.get
        { d with reader, tree := store }.run =
        (.ok (.ok d.config, { d with reader, tree := store }.run) :
          Outcome Fault HufError (DecodeRun ρ ω) (HufConfig ρ ω)) := rfl
    rw [Routine.bind_of_ok hconfig, hcount]
    apply LeavesWith.bind
    exact hufDecodeBlock_leaves (d := { d with reader, tree := store }) h.lastNode hholds hheight
      h.writing hdraining hfailed

/-- A block that fails has written the symbols that were restored from it. -/
theorem decodeNextBlock_leaves (h : Between src sink total length d left written)
    (treeLength : Int16) (hfailed : readBlock left = .failed code) :
    LeavesWith sink (written ++ blockRestored left) code (decodeNextBlock treeLength d.run) := by
  have hkept : ∀ d' : DecodeState ρ ω, d'.writer = d.writer →
      Writing sink.toFallibleSink d'.writer (written ++ []) := by
    intro d' hwriter
    rw [hwriter, List.append_nil]
    exact h.writing
  rw [decodeNextBlock, DecodeState.config_get_bind]
  rw [readBlock] at hfailed
  rw [blockRestored]
  by_cases hcount : left.length < 8
  · rw [if_pos (by omega)] at hfailed ⊢
    cases hfailed
    rcases hufBufioRead_error h.draining.toReading (leBytes 8 d.config.blocksize)
      (by rw [length_leBytes]; exact hcount) with ⟨reader, hread, -⟩
    apply LeavesWith.bind
    exact ⟨{ d with reader }, DecodeState.within_reader hread, hkept _ rfl⟩
  rcases h.draining.read_ok (leBytes 8 d.config.blocksize) (by simp only [length_leBytes]; omega)
    with ⟨reader₁, hread₁, hdraining₁⟩
  rw [length_leBytes] at hread₁ hdraining₁
  have hset : Routine.within DecodeRun.config
      (Routine.modify fun config : HufConfig ρ ω =>
        { config with blocksize := leNat (left.take 8) }) { d with reader := reader₁ }.run =
      (.ok (.ok (), { d with
          reader := reader₁
          config := { d.config with blocksize := leNat (left.take 8) } }.run) :
        Outcome Fault HufError (DecodeRun ρ ω) Unit) := rfl
  rw [Routine.bind_of_ok (DecodeState.within_reader hread₁), Routine.bind_of_ok hset]
  set d₁ : DecodeState ρ ω := { d with
    reader := reader₁
    config := { d.config with blocksize := leNat (left.take 8) } } with hd₁
  by_cases hheader : left.length < 10
  · rw [if_pos hheader] at hfailed ⊢
    cases hfailed
    rcases hufBufioRead_error hdraining₁.toReading (wordBytes treeLength)
      (by simp only [length_wordBytes, List.length_drop]; omega) with ⟨reader, hread, -⟩
    apply LeavesWith.bind
    exact ⟨{ d₁ with reader }, DecodeState.within_reader (d := d₁) hread, hkept _ rfl⟩
  rcases hdraining₁.read_ok (wordBytes treeLength)
    (by simp only [length_wordBytes, List.length_drop]; omega) with ⟨reader₂, hread₂, hdraining₂⟩
  rw [length_wordBytes] at hread₂ hdraining₂
  rw [List.drop_drop] at hdraining₂
  rw [Routine.bind_of_ok (DecodeState.within_reader (d := d₁) hread₂)]
  rw [if_neg hheader] at hfailed ⊢
  dsimp only
  by_cases hrange : (bytesWord ((left.drop 8).take 2)).toInt < 0 ∨
      (bytesWord ((left.drop 8).take 2)).toInt > hufBtreeLen
  · rw [if_pos hrange] at hfailed ⊢
    cases hfailed
    rw [if_pos hrange]
    exact ⟨{ d₁ with reader := reader₂ }, rfl, hkept _ rfl⟩
  · rw [if_neg hrange] at hfailed ⊢
    rw [if_neg hrange]
    have hbetween : Between src sink total length { d₁ with reader := reader₂ } (left.drop 10)
        written := ⟨h.lastNode, h.root, h.allocations, h.declared, h.writing, hdraining₂⟩
    have hshort : (left.drop 10).length < 2 * (bytesWord ((left.drop 8).take 2)).toInt.toNat ↔
        left.length < 10 + 2 * (bytesWord ((left.drop 8).take 2)).toInt.toNat := by
      simp only [List.length_drop]
      omega
    have hleaves := @decodeTree_leaves _ _ src sink total length _ _ _ code hbetween
      (leNat (left.take 8)) rfl (bytesWord ((left.drop 8).take 2)) (by omega)
    rw [List.drop_drop] at hleaves
    simp only [hshort] at hleaves
    exact hleaves hfailed

/-! ## The whole input -/

/-- The loop that fails has written the symbols that were restored. -/
theorem blocksLoop_leaves {g : StreamState ρ ω} {n fuel : ℕ} (treeLength : Int16)
    {s : DecodeRun ρ ω} (hfuel : n < fuel)
    (hinv : StreamInv src sink total length g n treeLength s)
    (hfailed : readBlocks (length - g.decoder.reader.bufio.haveBeenProcessed) g.left =
      .failed code) :
    LeavesWith sink (g.written ++
        restored (length - g.decoder.reader.bufio.haveBeenProcessed) g.left) code
      (Routine.whileLoop .endless blocksCond blocksBody fuel treeLength s) := by
  revert hfailed
  refine Routine.whileLoop_rule (StreamInv src sink total length)
    (fun g outcome => readBlocks (length - g.decoder.reader.bufio.haveBeenProcessed) g.left =
        .failed code →
      LeavesWith sink (g.written ++
        restored (length - g.decoder.reader.bufio.haveBeenProcessed) g.left) code outcome) ?_
    hfuel hinv
  rintro ⟨d, left, written⟩ n treeLength s next ⟨rfl, hbetween, hmeasure⟩ hnext hfailed
  dsimp only at hbetween hmeasure hfailed ⊢
  have hcond : blocksCond treeLength d.run =
      .ok (.ok (decide (length > d.reader.bufio.haveBeenProcessed)), d.run) := by
    rw [← hbetween.declared]
    rfl
  by_cases hdone : length - d.reader.bufio.haveBeenProcessed = 0
  · rw [hdone, readBlocks_zero] at hfailed
    cases hfailed
  rw [decide_eq_true (by omega)] at hcond
  cases hread : readBlock left with
  | complete symbols rest =>
      have hblock := decodeNextBlock_ends hbetween treeLength
      rw [hread] at hblock
      rcases hblock with ⟨treeLength', d', hrun, hbetween'⟩
      have hshorter := (readBlock_rest hread).2
      have hcounted := hbetween.draining.counted
      have hcounted' := hbetween'.draining.counted
      have hleft : length - d'.reader.bufio.haveBeenProcessed =
          length - d.reader.bufio.haveBeenProcessed - (left.length - rest.length) := by omega
      rw [readBlocks_of_complete hdone hread, ← hleft] at hfailed
      rw [restored_of_complete hdone hread, ← hleft, ← List.append_assoc,
        Routine.iteration_of_next hcond (Routine.bind_of_ok hrun)]
      apply hnext ⟨d', rest, written ++ symbols⟩ (length - d'.reader.bufio.haveBeenProcessed)
        (by omega) treeLength' _ ⟨rfl, hbetween', rfl⟩
      cases hlater : readBlocks (length - d'.reader.bufio.haveBeenProcessed) rest with
      | complete later rest' => rw [hlater] at hfailed; cases hfailed
      | failed code' => rw [hlater] at hfailed; exact hfailed
      | crashed => rw [hlater] at hfailed; cases hfailed
  | failed code' =>
      rw [readBlocks_of_failed hdone hread] at hfailed
      cases hfailed
      rcases decodeNextBlock_leaves hbetween treeLength hread with ⟨d', hrun, hwriting⟩
      rw [restored_of_incomplete hdone (by simp [hread])]
      exact ⟨d', Routine.iteration_of_error hcond (Routine.bind_of_error hrun), hwriting⟩
  | crashed =>
      rw [readBlocks_of_crashed hdone hread] at hfailed
      cases hfailed

end

/-! ## The buffer of the writer -/

theorem writeUnderlying_keepsCapacity (data : List UInt8) :
    Preserves (fun b : Buffered ω => b.bufio.capacity) (writeUnderlying data) :=
  Preserves.get_bind fun _ => Preserves.within (fun _ _ => rfl) _

theorem hufBufioReadWriterFlush_keepsCapacity :
    Preserves (fun b : Buffered ω => b.bufio.capacity) hufBufioReadWriterFlush := by
  apply Preserves.get_bind
  intro _
  apply Preserves.ite _ (Preserves.pure _)
  apply Preserves.bind (Preserves.demand _)
  intro _
  apply Preserves.bind (writeUnderlying_keepsCapacity _)
  intro _
  apply Preserves.bind
  · exact Preserves.modify fun _ => rfl
  · exact fun _ => Preserves.modify fun _ => rfl

theorem hufBufioReadWriterFlushFull_keepsCapacity :
    Preserves (fun b : Buffered ω => b.bufio.capacity) hufBufioReadWriterFlushFull := by
  apply Preserves.get_bind
  intro _
  apply Preserves.ite _ (Preserves.pure _)
  apply Preserves.bind (Preserves.demand _)
  intro _
  apply Preserves.bind (writeUnderlying_keepsCapacity _)
  intro _
  apply Preserves.bind
  · exact Preserves.modify fun _ => rfl
  intro _
  apply Preserves.bind
  · exact Preserves.modify fun _ => rfl
  intro _
  apply Preserves.get_bind
  intro _
  exact Preserves.ite (Preserves.fail _) (Preserves.pure _)

theorem hufBufioWrite_keepsCapacity (buf : List UInt8) :
    Preserves (fun b : Buffered ω => b.bufio.capacity) (hufBufioWrite buf) := by
  apply Preserves.bind hufBufioReadWriterFlushFull_keepsCapacity
  intro _
  apply Preserves.get_bind
  intro b
  apply Preserves.ite
  · apply Preserves.bind (Preserves.demand _)
    intro _
    exact Preserves.modify fun _ => rfl
  · apply Preserves.ite _ (Preserves.pure _)
    apply Preserves.bind hufBufioReadWriterFlush_keepsCapacity
    intro _
    apply Preserves.bind (writeUnderlying_keepsCapacity _)
    intro _
    exact Preserves.modify fun _ => rfl

/-- The capacity of the writer of a decoder. -/
def DecodeRun.writerCapacity (s : DecodeRun ρ ω) : Option ℕ :=
  s.1.bind fun self => self.bufioWriter.map HufBufioReadWriter.capacity

/-- A routine that does not change the capacity of the writer. -/
abbrev KeepsCapacity {α : Type} (x : CRoutine (DecodeRun ρ ω) α) : Prop :=
  Preserves DecodeRun.writerCapacity x

section

variable {α : Type}

theorem keepsCapacity_writer {x : CRoutine (Buffered ω) α}
    (hx : Preserves (fun b => b.bufio.capacity) x) :
    KeepsCapacity (Routine.within (DecodeRun.bufioWriter (ρ := ρ)) x) := by
  apply Preserves.within_of _ hx
  rintro ⟨_ | ⟨config, tree, lastNode, _ | writer, reader⟩, world⟩ b b' hload hcapacity
  · cases hload
  · cases hload
  · cases hload
    exact congrArg some hcapacity

theorem keepsCapacity_self {x : CRoutine (HufDecoder ρ ω) α}
    (hx : Preserves (fun self => self.bufioWriter) x) :
    KeepsCapacity (Routine.within DecodeRun.self x) := by
  apply Preserves.within_of _ hx
  rintro ⟨_ | self, world⟩ self₀ self' hload hwriter
  · cases hload
  · cases hload
    exact congrArg (Option.map HufBufioReadWriter.capacity) hwriter

theorem keepsCapacity_reader (x : CRoutine (Buffered ρ) α) :
    KeepsCapacity (Routine.within (DecodeRun.bufioReader (ω := ω)) x) := by
  apply Preserves.within
  rintro b ⟨_ | self, world⟩ <;> rfl

theorem keepsCapacity_config (x : CRoutine (HufConfig ρ ω) α) :
    KeepsCapacity (Routine.within DecodeRun.config x) := by
  apply Preserves.within
  rintro config ⟨_ | self, world⟩ <;> rfl

theorem keepsCapacity_tree (x : CRoutine TreeStore α) :
    KeepsCapacity (Routine.within (DecodeRun.huffmanTree (ρ := ρ) (ω := ω)) x) := by
  apply Preserves.within
  rintro t ⟨_ | self, world⟩ <;> rfl

theorem keepsCapacity_malloc :
    KeepsCapacity (Routine.within (SelfRun.allocator (ρ := ρ) (ω := ω)) hufMalloc) :=
  Preserves.within (fun _ _ => rfl) _

theorem keepsCapacity_setLastNode (lastNode : Option ℕ) :
    KeepsCapacity (Routine.within (DecodeRun.self (ρ := ρ) (ω := ω))
      (Routine.modify fun self => { self with lastNode })) :=
  keepsCapacity_self (Preserves.modify fun _ => rfl)

end

/-! Every routine of the decoder keeps the capacity. -/

theorem decodeBit_keepsCapacity (bit : Bool) : KeepsCapacity (decodeBit (ρ := ρ) (ω := ω) bit) := by
  apply Preserves.get_bind
  intro _
  apply Preserves.bind (keepsCapacity_self Preserves.get)
  intro _
  apply Preserves.bind (Preserves.demand _)
  intro node
  apply Preserves.bind (keepsCapacity_setLastNode _)
  intro _
  have hrest : ∀ bit : Bool, KeepsCapacity (do
      let node ← Routine.demand
        ((← Routine.get).2.heap.deref (if bit then node.right else node.left))
      if node.left ≠ none ∨ node.right ≠ none then
        return false
      Routine.within DecodeRun.bufioWriter (hufBufioWriteUint8 node.index.toUInt16.toUInt8)
      let root := (← Routine.within DecodeRun.huffmanTree Routine.get).tree.root
      Routine.within DecodeRun.self (Routine.modify fun self => { self with lastNode := root })
      return true : CRoutine (DecodeRun ρ ω) Bool) := by
    intro bit
    apply Preserves.get_bind
    intro _
    apply Preserves.bind (Preserves.demand _)
    intro _
    apply Preserves.ite (Preserves.pure _)
    apply Preserves.bind (keepsCapacity_writer (hufBufioWrite_keepsCapacity _))
    intro _
    apply Preserves.bind (keepsCapacity_tree _)
    intro _
    apply Preserves.bind (keepsCapacity_setLastNode _)
    exact fun _ => Preserves.pure _
  apply Preserves.ite (Preserves.fail _)
  exact hrest bit

theorem decodeBits_keepsCapacity (byte : UInt8) (len n restored : ℕ) :
    KeepsCapacity (decodeBits (ρ := ρ) (ω := ω) byte len n restored) := by
  induction n generalizing restored with
  | zero => exact Preserves.pure _
  | succ n ih =>
      apply Preserves.bind (decodeBit_keepsCapacity _)
      intro _
      apply Preserves.ite _ (ih _)
      exact Preserves.ite (Preserves.pure _) (ih _)

theorem hufDecodeBlock_keepsCapacity (len : ℕ) :
    KeepsCapacity (hufDecodeBlock (ρ := ρ) (ω := ω) len) := by
  have hloop : KeepsCapacity (do
      let _ ← payloadLoop (ρ := ρ) (ω := ω) len ((len + 1) * (hufBtreeLen + 1) + 1) (0, 0)) := by
    apply Preserves.bind _ fun _ => Preserves.pure _
    apply Preserves.whileLoop fun _ => Preserves.pure _
    intro _
    apply Preserves.bind (keepsCapacity_reader _)
    intro _
    apply Preserves.bind (decodeBits_keepsCapacity _ _ _ _)
    exact fun _ => Preserves.pure _
  apply Preserves.bind (keepsCapacity_self Preserves.get)
  intro _
  apply Preserves.ite _ hloop
  apply Preserves.bind (keepsCapacity_tree _)
  intro _
  apply Preserves.bind (keepsCapacity_setLastNode _)
  exact fun _ => hloop

theorem decodeNextBlock_keepsCapacity (treeLength : Int16) :
    KeepsCapacity (decodeNextBlock (ρ := ρ) (ω := ω) treeLength) := by
  apply Preserves.bind (keepsCapacity_config _)
  intro _
  apply Preserves.bind (keepsCapacity_reader _)
  intro _
  apply Preserves.bind (keepsCapacity_config _)
  intro _
  apply Preserves.bind (keepsCapacity_reader _)
  intro _
  apply Preserves.ite (Preserves.fail _)
  apply Preserves.bind keepsCapacity_malloc
  intro _
  apply Preserves.bind (keepsCapacity_reader _)
  intro _
  apply Preserves.bind (keepsCapacity_tree _)
  intro _
  apply Preserves.bind (keepsCapacity_config _)
  intro _
  apply Preserves.bind (hufDecodeBlock_keepsCapacity _)
  intro _
  apply Preserves.bind (keepsCapacity_tree _)
  intro _
  apply Preserves.bind (keepsCapacity_setLastNode _)
  exact fun _ => Preserves.pure _

theorem decodeBlocks_keepsCapacity : KeepsCapacity (decodeBlocks (ρ := ρ) (ω := ω)) := by
  apply Preserves.bind (keepsCapacity_config _)
  intro _
  apply Preserves.bind
  · apply Preserves.whileLoop
    · intro _
      apply Preserves.bind (keepsCapacity_config _)
      intro _
      apply Preserves.bind (keepsCapacity_reader _)
      exact fun _ => Preserves.pure _
    · intro _
      apply Preserves.bind (decodeNextBlock_keepsCapacity _)
      exact fun _ => Preserves.pure _
  · exact fun _ => keepsCapacity_writer hufBufioReadWriterFlush_keepsCapacity

end LibHuffman
