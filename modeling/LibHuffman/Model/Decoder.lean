/-
# Decoder of `decoder.c`
-/

import LibHuffman.Model.Config

namespace LibHuffman

open Foundation

variable {ρ ω : Type}

/-- `huf_decoder_t` -/
structure HufDecoder (ρ ω : Type) where
  config : Option (HufConfig ρ ω)
  huffmanTree : Option HufTree
  lastNode : Option ℕ
  bufioWriter : Option (HufBufioReadWriter ω)
  bufioReader : Option (HufBufioReadWriter ρ)

/-- A run of the decoder: the local pointer `self` and the caller's objects. -/
abbrev DecodeRun (ρ ω : Type) : Type := SelfRun (HufDecoder ρ ω) ρ ω

/-! ## The objects of a decoder -/

namespace DecodeRun

open SelfRun

/-- The decoder itself. -/
def self : Place Fault (DecodeRun ρ ω) (HufDecoder ρ ω) where
  load s := deref s.1
  store self s := (some self, s.2)

/-- The configuration of the decoder. -/
def config : Place Fault (DecodeRun ρ ω) (HufConfig ρ ω) where
  load s := do deref (← deref s.1).config
  store config := onSelf fun self => { self with config := some config }

/-- The tree of the decoder, with the heap. -/
def huffmanTree : Place Fault (DecodeRun ρ ω) TreeStore where
  load s := do return ⟨← deref (← deref s.1).huffmanTree, s.2.heap⟩
  store t s := onSelf (fun self => { self with huffmanTree := some t.tree })
    (s.1, { s.2 with heap := t.heap })

/-- The buffered reader of the decoder, with the input. -/
def bufioReader : Place Fault (DecodeRun ρ ω) (Buffered ρ) where
  load s := do return ⟨← deref (← deref s.1).bufioReader, s.2.input⟩
  store b s := onSelf (fun self => { self with bufioReader := some b.bufio })
    (s.1, { s.2 with input := b.stream })

/-- The buffered writer of the decoder, with the output. -/
def bufioWriter : Place Fault (DecodeRun ρ ω) (Buffered ω) where
  load s := do return ⟨← deref (← deref s.1).bufioWriter, s.2.output⟩
  store b s := onSelf (fun self => { self with bufioWriter := some b.bufio })
    (s.1, { s.2 with output := b.stream })

end DecodeRun

/-! ## Creation and release -/

/-- `huf_decoder_init` -/
def hufDecoderInit (config : Option (HufConfig ρ ω)) : CRoutine (DecodeRun ρ ω) Unit := do
  let config ← requireParam config
  Routine.within SelfRun.allocator hufMalloc
  Routine.modify fun s => (some ⟨none, none, none, none, none⟩, s.2)
  Routine.within (SelfRun.creating (·.config) fun c self => { self with config := c })
    (hufConfigInit config)
  Routine.within (SelfRun.creating (·.huffmanTree) fun t self => { self with huffmanTree := t })
    hufTreeInit
  let config ← Routine.within DecodeRun.config Routine.get
  Routine.within (SelfRun.creating (·.bufioWriter) fun b self => { self with bufioWriter := b })
    (hufBufioReadWriterInit config.writer config.writerBufferSize)
  let config ← Routine.within DecodeRun.config Routine.get
  Routine.within (SelfRun.creating (·.bufioReader) fun b self => { self with bufioReader := b })
    (hufBufioReadWriterInit config.reader config.readerBufferSize)

/-- `huf_decoder_free` -/
def hufDecoderFree : CRoutine (DecodeRun ρ ω) Unit := do
  Routine.within
    (SelfRun.releasingTree (·.huffmanTree) fun t self => { self with huffmanTree := t }) hufTreeFree
  Routine.within (SelfRun.releasing (·.bufioWriter) fun b self => { self with bufioWriter := b })
    hufBufioReadWriterFree
  Routine.within (SelfRun.releasing (·.bufioReader) fun b self => { self with bufioReader := b })
    hufBufioReadWriterFree
  Routine.within (SelfRun.releasing (·.config) fun c self => { self with config := c })
    hufConfigFree
  Routine.modify fun s => (none, s.2)

/-! ## Decoding -/

/-- One step of the bit loop of `__huf_decode_block`: move to the child that the
bit selects and, at a leaf, write its symbol and go back to the root. The result
says whether a symbol was restored. -/
def decodeBit (bit : Bool) : CRoutine (DecodeRun ρ ω) Bool := do
  let node ← Routine.demand
    ((← Routine.get).2.heap.deref (← Routine.within DecodeRun.self Routine.get).lastNode)
  let lastNode := if bit then node.right else node.left
  Routine.within DecodeRun.self (Routine.modify fun self => { self with lastNode })
  if lastNode = none then
    Routine.fail .btreeCorrupted
  let node ← Routine.demand ((← Routine.get).2.heap.deref lastNode)
  if node.left ≠ none ∨ node.right ≠ none then
    return false
  Routine.within DecodeRun.bufioWriter (hufBufioWriteUint8 node.index.toUInt16.toUInt8)
  let root := (← Routine.within DecodeRun.huffmanTree Routine.get).tree.root
  Routine.within DecodeRun.self (Routine.modify fun self => { self with lastNode := root })
  return true

/-- The bit loop of `__huf_decode_block`. The first number is `bit_offset`, the
result the new value of `restored`. -/
def decodeBits (byte : UInt8) (len : ℕ) : ℕ → ℕ → CRoutine (DecodeRun ρ ω) ℕ
  | 0, restored => pure restored
  | bitOffset + 1, restored => do
    let bit := (byte >>> UInt8.ofNat bitOffset) &&& 1
    if ← decodeBit (bit ≠ 0) then
      if restored + 1 ≥ len then
        return restored + 1
      decodeBits byte len bitOffset (restored + 1)
    else
      decodeBits byte len bitOffset restored

/-- `__huf_decode_block`. A symbol takes at most as many bytes as the tree has
levels, and a tree has at most `HUF_BTREE_LEN` of them. -/
def hufDecodeBlock (len : ℕ) : CRoutine (DecodeRun ρ ω) Unit := do
  if (← Routine.within DecodeRun.self Routine.get).lastNode = none then
    let root := (← Routine.within DecodeRun.huffmanTree Routine.get).tree.root
    Routine.within DecodeRun.self (Routine.modify fun self => { self with lastNode := root })
  let _ ← Routine.whileLoop .endless
    (fun (restored, _) => pure (decide (restored < len)))
    (fun (restored, byte) => do
      let byte ← Routine.within DecodeRun.bufioReader (hufBufioReadUint8 byte)
      let restored ← decodeBits byte len 8 restored
      return .next (restored, byte))
    ((len + 1) * (hufBtreeLen + 1) + 1) (0, 0)

/-- One iteration of the loop of `huf_decode`. The argument is `tree_length`. -/
def decodeNextBlock (treeLength : Int16) : CRoutine (DecodeRun ρ ω) Int16 := do
  let blocksize := (← Routine.within DecodeRun.config Routine.get).blocksize
  let buf ← Routine.within DecodeRun.bufioReader (hufBufioRead (leBytes 8 blocksize))
  Routine.within DecodeRun.config
    (Routine.modify fun config => { config with blocksize := leNat buf })
  let buf ← Routine.within DecodeRun.bufioReader (hufBufioRead (wordBytes treeLength))
  let treeLength := bytesWord buf
  if treeLength.toInt < 0 ∨ treeLength.toInt > hufBtreeLen then
    Routine.fail .btreeOverflow
  let len := treeLength.toInt.toNat
  Routine.within SelfRun.allocator hufMalloc
  let treeHead ← Routine.within DecodeRun.bufioReader
    (hufBufioRead (List.replicate (len * 2) 0))
  Routine.within DecodeRun.huffmanTree (hufTreeDeserialize (bytesWords len treeHead) len)
  hufDecodeBlock (← Routine.within DecodeRun.config Routine.get).blocksize
  Routine.within DecodeRun.huffmanTree hufTreeReset
  Routine.within DecodeRun.self (Routine.modify fun self => { self with lastNode := none })
  return treeLength

/-- The loop of `huf_decode` and the final flush. Every block takes at least one
byte, so there are at most as many as the declared length. -/
def decodeBlocks : CRoutine (DecodeRun ρ ω) Unit := do
  let length := (← Routine.within DecodeRun.config Routine.get).length
  let _ ← Routine.whileLoop .endless
    (fun _ => do
      let length := (← Routine.within DecodeRun.config Routine.get).length
      let reader := (← Routine.within DecodeRun.bufioReader Routine.get).bufio
      return decide (length > reader.haveBeenProcessed))
    (fun treeLength => do return .next (← decodeNextBlock treeLength))
    (length + 1) (0 : Int16)
  Routine.within DecodeRun.bufioWriter hufBufioReadWriterFlush

/-- `huf_decode` -/
def hufDecode (config : Option (HufConfig ρ ω)) : CRoutine (World ρ ω) Unit :=
  Routine.withLocal none
    (Routine.ensuring
      (do
        hufDecoderInit config
        decodeBlocks)
      hufDecoderFree)

end LibHuffman
