/-
# Decoding a payload

The bit loop of `__huf_decode_block` is a scan of the bits of a byte, and its byte
loop a scan of bytes. Each level is one induction: a bit moves to a child that is
absent, a leaf or a node with children; the bits of a byte are followed by `scan`;
the bytes by `scanBytes`, with a measure that every bit decreases. The scan may
start at any node of the tree that is there. At an empty tree the first step
follows a null pointer.
-/

import LibHuffman.Decode.State
import LibHuffman.Format.Blocks

namespace LibHuffman

open Foundation

variable {ρ ω : Type}

/-! ## One bit -/

/-- A node that is there can be read, and its pointers lead to its children. -/
theorem TreeAt.step {heap : Heap} {pointer : Option ℕ} {cur : BinaryTree Int16} {cells : List ℕ}
    (h : TreeAt heap pointer cur cells) (hcur : cur ≠ .nil) :
    ∃ node, heap.deref pointer = .ok node ∧
      ∀ bit, ∃ cells',
        TreeAt heap (if bit then node.right else node.left) (child bit cur) cells' := by
  cases h with
  | absent => exact absurd rfl hcur
  | node hnode hleft hright =>
      refine ⟨_, Heap.read_of_some hnode, fun bit => ?_⟩
      cases bit with
      | false => exact ⟨_, hleft⟩
      | true => exact ⟨_, hright⟩

/-- Reading the node a pointer leads to. -/
theorem TreeAt.deref {heap : Heap} {pointer : Option ℕ} {index : Int16}
    {left right : BinaryTree Int16} {cells : List ℕ}
    (h : TreeAt heap pointer (.node index left right) cells) :
    ∃ node, heap.deref pointer = .ok node ∧ pointer ≠ none ∧ node.index = index ∧
      (node.left = none ↔ left = .nil) ∧ (node.right = none ↔ right = .nil) := by
  cases h with
  | node hnode hleft hright =>
      exact ⟨_, Heap.read_of_some hnode, by simp, rfl, hleft.pointer_eq_none_iff,
        hright.pointer_eq_none_iff⟩

section

variable {sink : Sink ω} {d : DecodeState ρ ω} {tree cur : BinaryTree Int16}
  {cells : List ℕ} {written : List UInt8}

/-- A step from a node that is not there follows a null pointer. -/
theorem decodeBit_null (hnull : d.lastNode = none) (bit : Bool) :
    decodeBit bit d.run = .error .nullPointer := by
  have hderef : d.tree.heap.deref d.lastNode = .error .nullPointer := by rw [hnull]; rfl
  rw [decodeBit, Routine.get_bind_apply,
    Routine.bind_of_ok (Routine.within_of_ok (s := ⟨some d.config, some d.tree.tree, d.lastNode,
      some d.writer.bufio, some d.reader.bufio⟩) rfl rfl)]
  exact Routine.bind_of_fault (by rw [show d.run.2.heap = d.tree.heap from rfl, hderef]; rfl)

/-- The first two statements of the bit loop: read the current node and move. -/
theorem decodeBit_move {node : HufNode} (hderef : d.tree.heap.deref d.lastNode = .ok node)
    (bit : Bool) :
    decodeBit bit d.run =
      ((do
        let lastNode := if bit then node.right else node.left
        if lastNode = none then
          Routine.fail .btreeCorrupted
        let node ← Routine.demand ((← Routine.get).2.heap.deref lastNode)
        if node.left ≠ none ∨ node.right ≠ none then
          return false
        Routine.within DecodeRun.bufioWriter (hufBufioWriteUint8 node.index.toUInt16.toUInt8)
        let root := (← Routine.within DecodeRun.huffmanTree Routine.get).tree.root
        Routine.within DecodeRun.self (Routine.modify fun self => { self with lastNode := root })
        return true : CRoutine (DecodeRun ρ ω) Bool)
        { d with lastNode := if bit then node.right else node.left }.run) := by
  rw [decodeBit, Routine.get_bind_apply,
    Routine.bind_of_ok (Routine.within_of_ok (s := ⟨some d.config, some d.tree.tree, d.lastNode,
      some d.writer.bufio, some d.reader.bufio⟩) rfl rfl)]
  rw [show d.run.2.heap = d.tree.heap from rfl, hderef, Routine.demand_ok_bind_apply]
  rfl

theorem decodeBit_absent (hat : TreeAt d.tree.heap d.lastNode cur cells) (hcur : cur ≠ .nil)
    {bit : Bool} (habsent : child bit cur = .nil) :
    decodeBit bit d.run = .ok (.error .btreeCorrupted, { d with lastNode := none }.run) := by
  obtain ⟨node, hderef, hchild⟩ := hat.step hcur
  obtain ⟨cells', hat'⟩ := hchild bit
  rw [habsent] at hat'
  have hnone := hat'.pointer_eq_none_iff.mpr rfl
  rw [decodeBit_move hderef]
  dsimp only
  rw [hnone, if_pos rfl]
  rfl

theorem decodeBit_inner (hat : TreeAt d.tree.heap d.lastNode cur cells) (hcur : cur ≠ .nil)
    {bit : Bool} (hinner : Inner (child bit cur)) :
    ∃ p cells', decodeBit bit d.run = .ok (.ok false, { d with lastNode := p }.run) ∧
      TreeAt d.tree.heap p (child bit cur) cells' := by
  obtain ⟨node, hderef, hchild⟩ := hat.step hcur
  obtain ⟨cells', hat'⟩ := hchild bit
  refine ⟨_, cells', ?_, hat'⟩
  rw [decodeBit_move hderef]
  cases hnext : child bit cur with
  | nil => rw [hnext] at hinner; exact hinner.elim
  | node index left right =>
      rw [hnext] at hat' hinner
      obtain ⟨next, hderef', hsome, -, hleft, hright⟩ := hat'.deref
      have hinner' : next.left ≠ none ∨ next.right ≠ none := by
        rw [ne_eq, hleft, ne_eq, hright]
        exact hinner
      dsimp only
      rw [if_neg hsome, Routine.get_bind_apply]
      show (Routine.demand (d.tree.heap.deref _) >>= _) _ = _
      rw [hderef', Routine.demand_ok_bind_apply, if_pos hinner']
      rfl

theorem decodeBit_leaf (hat : TreeAt d.tree.heap d.lastNode cur cells) (hcur : cur ≠ .nil)
    (hwriting : Writing sink.toFallibleSink d.writer written) {bit : Bool} {index : Int16}
    (hleaf : child bit cur = .node index .nil .nil) :
    ∃ writer, decodeBit bit d.run =
        .ok (.ok true, { d with lastNode := d.tree.tree.root, writer }.run) ∧
      Writing sink.toFallibleSink writer (written ++ [indexByte index]) := by
  obtain ⟨node, hderef, hchild⟩ := hat.step hcur
  obtain ⟨cells', hat'⟩ := hchild bit
  rw [hleaf] at hat'
  obtain ⟨next, hderef', hsome, rfl, hleft, hright⟩ := hat'.deref
  obtain ⟨writer, hwrite, hwriting'⟩ :=
    hufBufioWriteUint8_ok hwriting next.index.toUInt16.toUInt8
  refine ⟨writer, ?_, hwriting'⟩
  rw [decodeBit_move hderef]
  dsimp only
  rw [if_neg hsome, Routine.get_bind_apply]
  show (Routine.demand (d.tree.heap.deref _) >>= _) _ = _
  rw [hderef', Routine.demand_ok_bind_apply,
    if_neg (by simp [hleft.mpr rfl, hright.mpr rfl])]
  have hwrite' := DecodeState.within_writer
    (d := { d with lastNode := if bit then node.right else node.left }) hwrite
  rw [Routine.bind_of_ok hwrite']
  rfl

end

/-! ## The bits of one byte -/

/-- What the bit loop does for each end of a scan: it goes back to the root, it
fails, or it stays at the node that was reached. -/
def BitsEnd (sink : Sink ω) (d : DecodeState ρ ω) (len : ℕ) (written : List UInt8)
    (outcome : Outcome Fault HufError (DecodeRun ρ ω) ℕ) : Scan Int16 Bool → Prop
  | .finished symbols _ => ∃ writer,
      outcome = .ok (.ok len, { d with lastNode := d.tree.tree.root, writer }.run) ∧
      Writing sink.toFallibleSink writer (written ++ symbols.map indexByte)
  | .stuck symbols => ∃ lastNode writer,
      outcome = .ok (.error .btreeCorrupted, { d with lastNode, writer }.run) ∧
      Writing sink.toFallibleSink writer (written ++ symbols.map indexByte)
  | .pending symbols need cur => ∃ lastNode writer cells,
      outcome = .ok (.ok (len - need), { d with lastNode, writer }.run) ∧
      TreeAt d.tree.heap lastNode cur cells ∧
      Writing sink.toFallibleSink writer (written ++ symbols.map indexByte)

section

variable {sink : Sink ω} {d : DecodeState ρ ω} {tree cur : BinaryTree Int16}
  {rootCells cells : List ℕ} {written : List UInt8} {len restored : ℕ}

/-- A scan that goes on after one symbol has been written. -/
theorem BitsEnd.after (lastNode : Option ℕ) (writer : Buffered ω) {index : Int16}
    {outcome : Outcome Fault HufError (DecodeRun ρ ω) ℕ} {s : Scan Int16 Bool}
    (h : BitsEnd sink { d with lastNode, writer } len (written ++ [indexByte index]) outcome s) :
    BitsEnd sink d len written outcome (s.after [index]) := by
  have hsymbols : ∀ symbols : List Int16,
      written ++ [indexByte index] ++ symbols.map indexByte =
        written ++ ([index] ++ symbols).map indexByte := fun symbols => by
    rw [List.map_append, List.append_assoc]
    rfl
  cases s with
  | finished symbols unused =>
      rcases h with ⟨writer', hrun, hwriting⟩
      exact ⟨writer', hrun, hsymbols symbols ▸ hwriting⟩
  | stuck symbols =>
      rcases h with ⟨lastNode', writer', hrun, hwriting⟩
      exact ⟨lastNode', writer', hrun, hsymbols symbols ▸ hwriting⟩
  | pending symbols need cur' =>
      rcases h with ⟨lastNode', writer', cells', hrun, hat, hwriting⟩
      exact ⟨lastNode', writer', cells', hrun, hat, hsymbols symbols ▸ hwriting⟩

/-- The bit loop scans the bits that are left of a byte. -/
theorem decodeBits_eq (hroot : TreeAt d.tree.heap d.tree.tree.root tree rootCells)
    (htree : tree ≠ .nil) (byte : UInt8) (n : ℕ) (hlt : restored < len)
    (hat : TreeAt d.tree.heap d.lastNode cur cells) (hcur : cur ≠ .nil)
    (hwriting : Writing sink.toFallibleSink d.writer written) :
    BitsEnd sink d len written (decodeBits byte len n restored d.run)
      (scan tree cur (len - restored) (bitsBelow byte n)) := by
  induction n generalizing d cur cells written restored with
  | zero =>
      obtain ⟨need, hneed⟩ : ∃ need, len - restored = need + 1 := ⟨len - restored - 1, by omega⟩
      rw [hneed, bitsBelow, scan_nil]
      refine ⟨d.lastNode, d.writer, cells, ?_, hat, ?_⟩
      · rw [show len - (need + 1) = restored by omega]
        rfl
      · rw [List.map_nil, List.append_nil]
        exact hwriting
  | succ n ih =>
      obtain ⟨need, hneed⟩ : ∃ need, len - restored = need + 1 := ⟨len - restored - 1, by omega⟩
      rw [hneed, bitsBelow]
      rcases child_cases (bitAt byte n) cur with habsent | ⟨index, hleaf⟩ | hinner
      · have hbit := decodeBit_absent hat hcur habsent
        rw [scan_absent habsent]
        refine ⟨none, d.writer, ?_, ?_⟩
        · rw [decodeBits]
          exact Routine.bind_of_error hbit
        · rw [List.map_nil, List.append_nil]
          exact hwriting
      · obtain ⟨writer, hbit, hwriting'⟩ := decodeBit_leaf hat hcur hwriting hleaf
        rw [scan_leaf hleaf, show need = len - (restored + 1) by omega]
        apply BitsEnd.after d.tree.tree.root writer
        have hrun : decodeBits byte len (n + 1) restored d.run =
            (if restored + 1 ≥ len then pure (restored + 1)
              else decodeBits byte len n (restored + 1) : CRoutine (DecodeRun ρ ω) ℕ)
              { d with lastNode := d.tree.tree.root, writer }.run := by
          rw [decodeBits]
          exact Routine.bind_of_ok hbit
        rw [hrun]
        by_cases hlast : restored + 1 ≥ len
        · rw [if_pos hlast, show len - (restored + 1) = 0 by omega, scan_zero]
          refine ⟨writer, ?_, ?_⟩
          · rw [show restored + 1 = len by omega]
            rfl
          · rw [List.map_nil, List.append_nil]
            exact hwriting'
        · rw [if_neg hlast]
          exact ih (d := { d with lastNode := d.tree.tree.root, writer }) hroot (by omega) hroot
            htree hwriting'
      · obtain ⟨p, cells', hbit, hat'⟩ := decodeBit_inner hat hcur hinner
        rw [scan_inner hinner, ← hneed]
        have hrun : decodeBits byte len (n + 1) restored d.run =
            decodeBits byte len n restored { d with lastNode := p }.run := by
          rw [decodeBits]
          exact Routine.bind_of_ok hbit
        have hne : child (bitAt byte n) cur ≠ .nil := fun hnil => by
          rw [hnil] at hinner
          exact hinner
        rw [hrun]
        exact ih (d := { d with lastNode := p }) hroot hlt hat' hne hwriting

end

/-! ## The bytes of a payload -/

/-- How a routine of the decoder ends that only reads, writes and moves in the
tree, where reading its input ends in the given way. -/
def DecodeEnds {α : Type} (src : Source ρ) (sink : Sink ω) (total : ℕ) (d : DecodeState ρ ω)
    (written : List UInt8) (outcome : Outcome Fault HufError (DecodeRun ρ ω) α) : ReadEnd → Prop
  | .complete symbols rest => ∃ a lastNode writer reader,
      outcome = .ok (.ok a, { d with lastNode, writer, reader }.run) ∧
      Writing sink.toFallibleSink writer (written ++ symbols) ∧ Draining src total reader rest
  | .failed code => ∃ lastNode writer reader,
      outcome = .ok (.error code, { d with lastNode, writer, reader }.run)
  | .crashed => outcome = .error .nullPointer

/-- A routine that goes on after some symbols have been written. -/
theorem DecodeEnds.after {α : Type} {src : Source ρ} {sink : Sink ω} {total : ℕ}
    {d : DecodeState ρ ω} {written symbols : List UInt8} {lastNode : Option ℕ}
    {writer : Buffered ω} {reader : Buffered ρ}
    {outcome : Outcome Fault HufError (DecodeRun ρ ω) α} {e : ReadEnd}
    (h : DecodeEnds src sink total { d with lastNode, writer, reader } (written ++ symbols)
      outcome e) :
    DecodeEnds src sink total d written outcome (e.after symbols) := by
  cases e with
  | complete later rest =>
      rcases h with ⟨a, lastNode', writer', reader', hrun, hwriting, hdraining⟩
      exact ⟨a, lastNode', writer', reader', hrun, List.append_assoc .. ▸ hwriting, hdraining⟩
  | failed code => exact h
  | crashed => exact h

/-- Where the byte loop stands: the state of the decoder, the node it has reached,
the symbols it still needs, what is left of the input and what it has written. -/
structure PayloadState (ρ ω : Type) where
  decoder : DecodeState ρ ω
  cur : BinaryTree Int16
  need : ℕ
  rest : List UInt8
  written : List UInt8

/-- The invariant of the byte loop. The measure is what `scan_progress` decreases. -/
structure PayloadInv (src : Source ρ) (sink : Sink ω) (total len : ℕ) (tree : BinaryTree Int16)
    (g : PayloadState ρ ω) (n : ℕ) (locals : ℕ × UInt8) (s : DecodeRun ρ ω) : Prop where
  state : s = g.decoder.run
  needed : locals.1 + g.need = len
  root : ∃ cells, TreeAt g.decoder.tree.heap g.decoder.tree.tree.root tree cells
  present : g.cur ≠ .nil
  reached : ∃ cells, TreeAt g.decoder.tree.heap g.decoder.lastNode g.cur cells
  writing : Writing sink.toFallibleSink g.decoder.writer g.written
  draining : Draining src total g.decoder.reader g.rest
  measure : n = g.need * (tree.height + 1) + g.cur.height

/-- The condition of the byte loop of `__huf_decode_block`. -/
def payloadCond (len : ℕ) (locals : ℕ × UInt8) : CRoutine (DecodeRun ρ ω) Bool :=
  pure (decide (locals.1 < len))

/-- The body of the byte loop. -/
def payloadBody (len : ℕ) (locals : ℕ × UInt8) :
    CRoutine (DecodeRun ρ ω) (LoopStep (ℕ × UInt8)) := do
  let byte ← Routine.within DecodeRun.bufioReader (hufBufioReadUint8 locals.2)
  let restored ← decodeBits byte len 8 locals.1
  return .next (restored, byte)

/-- The byte loop. -/
def payloadLoop (len fuel : ℕ) : ℕ × UInt8 → CRoutine (DecodeRun ρ ω) (ℕ × UInt8) :=
  Routine.whileLoop .endless (payloadCond len) (payloadBody len) fuel

section

variable {src : Source ρ} {sink : Sink ω} {total len : ℕ} {tree : BinaryTree Int16}

theorem payloadBody_of_read {d : DecodeState ρ ω} {reader : Buffered ρ} {byte b : UInt8}
    (hread : hufBufioReadUint8 byte d.reader = .ok (.ok b, reader)) (restored : ℕ) :
    payloadBody len (restored, byte) d.run =
      (decodeBits b len 8 restored >>= fun restored => pure (.next (restored, b)))
        { d with reader }.run :=
  Routine.bind_of_ok (DecodeState.within_reader hread)

/-- The byte loop scans the bytes that are left. -/
theorem payloadLoop_ends (htree : tree ≠ .nil) {g : PayloadState ρ ω} {n fuel : ℕ}
    {locals : ℕ × UInt8} {s : DecodeRun ρ ω} (hfuel : n < fuel)
    (hinv : PayloadInv src sink total len tree g n locals s) :
    DecodeEnds src sink total g.decoder g.written (payloadLoop len fuel locals s)
      (scanEnd (scanBytes tree g.cur g.need g.rest)) := by
  refine Routine.whileLoop_rule (PayloadInv src sink total len tree)
    (fun g outcome => DecodeEnds src sink total g.decoder g.written outcome
      (scanEnd (scanBytes tree g.cur g.need g.rest))) ?_ hfuel hinv
  rintro ⟨d, cur, need, rest, written⟩ n ⟨restored, byte⟩ s next
    ⟨rfl, hneed, ⟨rootCells, hroot⟩, hcur, ⟨cells, hat⟩, hwriting, hdraining, hmeasure⟩ hnext
  dsimp only at hneed hroot hcur hat hwriting hdraining hmeasure ⊢
  cases need with
  | zero =>
      -- all symbols are restored
      have hcond : payloadCond len (restored, byte) d.run = .ok (.ok false, d.run) := by
        rw [payloadCond, decide_eq_false (by omega)]
        rfl
      rw [Routine.iteration_of_stop hcond, scanBytes_zero]
      exact ⟨_, d.lastNode, d.writer, d.reader, rfl, by simpa using hwriting, hdraining⟩
  | succ need =>
      have hcond : payloadCond len (restored, byte) d.run = .ok (.ok true, d.run) := by
        rw [payloadCond, decide_eq_true (by omega)]
        rfl
      cases rest with
      | nil =>
          -- the input ends inside the block
          obtain ⟨reader, hread⟩ := hufBufioReadUint8_error hdraining.toReading byte
          refine ⟨d.lastNode, d.writer, reader, ?_⟩
          exact Routine.iteration_of_error hcond
            (Routine.bind_of_error (DecodeState.within_reader hread))
      | cons b rest =>
          obtain ⟨reader, hread, hdraining'⟩ := hdraining.readUint8_ok byte
          have hrestored : restored < len := by omega
          have hbits := decodeBits_eq (d := { d with reader }) hroot htree b 8 hrestored hat hcur
            hwriting
          rw [show len - restored = need + 1 by omega, ← byteBits] at hbits
          rw [scanBytes]
          cases hscan : scan tree cur (need + 1) (byteBits b) with
          | stuck symbols =>
              rw [hscan] at hbits
              rcases hbits with ⟨lastNode, writer, hrun, -⟩
              exact ⟨lastNode, writer, reader, Routine.iteration_of_error hcond
                ((payloadBody_of_read hread restored).trans (Routine.bind_of_error hrun))⟩
          | finished symbols unused =>
              rw [hscan] at hbits
              rcases hbits with ⟨writer, hrun, hwriting'⟩
              rw [Routine.iteration_of_next hcond
                ((payloadBody_of_read hread restored).trans (Routine.bind_of_ok hrun))]
              have hdone := hnext ⟨{ d with lastNode := d.tree.tree.root, writer, reader }, tree, 0,
                rest, written ++ symbols.map indexByte⟩ tree.height
                (by simp only [hmeasure, Nat.succ_mul]; omega) (len, b) _
                ⟨rfl, Nat.add_zero len, ⟨rootCells, hroot⟩, htree, ⟨rootCells, hroot⟩, hwriting',
                  hdraining', by rw [Nat.zero_mul, Nat.zero_add]⟩
              have hafter := DecodeEnds.after hdone
              rw [scanBytes_zero] at hafter
              simpa [scanEnd, ReadEnd.after] using hafter
          | pending symbols need' cur' =>
              rw [hscan] at hbits
              rcases hbits with ⟨lastNode, writer, cells', hrun, hat', hwriting'⟩
              obtain ⟨hcount, hprogress⟩ := scan_progress hscan
              obtain ⟨hcur', hneed'⟩ := scan_pending_ne_nil htree hcur hscan
              rw [length_byteBits] at hprogress
              rw [Routine.iteration_of_next hcond
                ((payloadBody_of_read hread restored).trans (Routine.bind_of_ok hrun))]
              have hlater := hnext ⟨{ d with lastNode, writer, reader }, cur', need', rest,
                written ++ symbols.map indexByte⟩ (need' * (tree.height + 1) + cur'.height)
                (by omega) (len - need', b) _
                ⟨rfl, by dsimp only; omega, ⟨rootCells, hroot⟩, hcur', ⟨cells', hat'⟩, hwriting',
                  hdraining', rfl⟩
              show DecodeEnds src sink total d written _
                (scanEnd (Scan.after symbols (scanBytes tree cur' need' rest)))
              rw [scanEnd_after]
              exact DecodeEnds.after hlater

/-- The end of a routine is the end of it with its value dropped. -/
theorem DecodeEnds.drop_value {α : Type} {d : DecodeState ρ ω} {written : List UInt8}
    {x : CRoutine (DecodeRun ρ ω) α} {s : DecodeRun ρ ω} {e : ReadEnd}
    (h : DecodeEnds src sink total d written (x s) e) :
    DecodeEnds src sink total d written ((x >>= fun _ => pure ()) s) e := by
  cases e with
  | complete symbols rest =>
      rcases h with ⟨a, lastNode, writer, reader, hrun, h⟩
      exact ⟨(), lastNode, writer, reader, Routine.bind_of_ok hrun, h⟩
  | failed code =>
      rcases h with ⟨lastNode, writer, reader, hrun⟩
      exact ⟨lastNode, writer, reader, Routine.bind_of_error hrun⟩
  | crashed => exact Routine.bind_of_fault h

/-- The byte loop at an empty tree: a first byte, if there is one, is followed
from a null pointer. -/
theorem payloadLoop_empty {d : DecodeState ρ ω} {rest written : List UInt8}
    (hnull : d.lastNode = none) (hlen : 0 < len)
    (hdraining : Draining src total d.reader rest) (fuel : ℕ) :
    DecodeEnds src sink total d written (payloadLoop len (fuel + 1) (0, 0) d.run)
      (if rest = [] then .failed .readWrite else .crashed) := by
  have hcond : payloadCond len (0, 0) d.run = .ok (.ok true, d.run) := by
    rw [payloadCond, decide_eq_true hlen]
    rfl
  cases rest with
  | nil =>
      obtain ⟨reader, hread⟩ := hufBufioReadUint8_error hdraining.toReading 0
      rw [if_pos rfl]
      exact ⟨d.lastNode, d.writer, reader, Routine.iteration_of_error hcond
        (Routine.bind_of_error (DecodeState.within_reader hread))⟩
  | cons b rest =>
      obtain ⟨reader, hread, -⟩ := hdraining.readUint8_ok 0
      rw [if_neg (List.cons_ne_nil b rest)]
      refine Routine.iteration_of_fault hcond ((payloadBody_of_read hread 0).trans ?_)
      apply Routine.bind_of_fault
      rw [decodeBits]
      exact Routine.bind_of_fault (decodeBit_null (d := { d with reader }) hnull _)

/-- A block is decoded as its payload is read. The bound on the height is what the
bound on the iterations of the byte loop rests on. -/
theorem hufDecodeBlock_ends (len : ℕ) {d : DecodeState ρ ω} {rest written : List UInt8}
    (hnew : d.lastNode = none) (hroot : d.tree.heap.Holds d.tree.tree.root tree)
    (hheight : tree.height ≤ hufBtreeLen)
    (hwriting : Writing sink.toFallibleSink d.writer written)
    (hdraining : Draining src total d.reader rest) :
    DecodeEnds src sink total d written (hufDecodeBlock len d.run)
      (readPayload tree len rest) := by
  rcases hroot with ⟨cells, hat, -, -⟩
  have hself : Routine.within DecodeRun.self Routine.get d.run =
      (.ok (.ok ⟨some d.config, some d.tree.tree, d.lastNode, some d.writer.bufio,
        some d.reader.bufio⟩, d.run) :
        Outcome Fault HufError (DecodeRun ρ ω) (HufDecoder ρ ω)) := rfl
  have htree : Routine.within DecodeRun.huffmanTree Routine.get d.run =
      (.ok (.ok d.tree, d.run) : Outcome Fault HufError (DecodeRun ρ ω) TreeStore) := rfl
  have hstart : hufDecodeBlock len d.run =
      (payloadLoop len ((len + 1) * (hufBtreeLen + 1) + 1) (0, 0) >>= fun _ => pure ())
        { d with lastNode := d.tree.tree.root }.run := by
    rw [hufDecodeBlock, Routine.bind_of_ok hself]
    dsimp only
    rw [if_pos hnew, Routine.bind_of_ok htree, Routine.bind_of_ok (DecodeState.setLastNode d _)]
    rfl
  rw [hstart]
  apply DecodeEnds.drop_value
  show DecodeEnds src sink total { d with lastNode := d.tree.tree.root } written _ _
  rw [readPayload]
  by_cases hlen : len = 0
  · have hcond : payloadCond len (0, 0) { d with lastNode := d.tree.tree.root }.run =
        .ok (.ok false, { d with lastNode := d.tree.tree.root }.run) := by
      rw [payloadCond, decide_eq_false (by omega)]
      rfl
    rw [if_pos hlen]
    refine ⟨_, _, _, _, Routine.iteration_of_stop hcond, ?_, hdraining⟩
    rw [List.append_nil]
    exact hwriting
  · rw [if_neg hlen]
    by_cases hempty : tree = .nil
    · rw [if_pos hempty]
      exact payloadLoop_empty (d := { d with lastNode := d.tree.tree.root })
        (hat.pointer_eq_none_iff.mpr hempty) (by omega) hdraining _
    · rw [if_neg hempty]
      refine payloadLoop_ends hempty
        (g := ⟨{ d with lastNode := d.tree.tree.root }, tree, len, rest, written⟩)
        (n := len * (tree.height + 1) + tree.height) ?_
        ⟨rfl, Nat.zero_add len, ⟨cells, hat⟩, hempty, ⟨cells, hat⟩, hwriting, hdraining, rfl⟩
      have hmul : len * (tree.height + 1) ≤ len * (hufBtreeLen + 1) :=
        Nat.mul_le_mul_left len (by omega)
      rw [Nat.succ_mul]
      omega

end

end LibHuffman
