/-
# Encoder of `encoder.c`
-/

import LibHuffman.Model.Config
import LibHuffman.Model.Symbol

namespace LibHuffman

open Foundation

variable {ρ ω : Type}

/-- `huf_encoder_t` -/
structure HufEncoder (ρ ω : Type) where
  config : Option (HufConfig ρ ω)
  bitWriter : HufBitReadWriter
  huffmanTree : Option HufTree
  mapping : Option HufSymbolMapping
  histogram : Option HufHistogram
  bufioWriter : Option (HufBufioReadWriter ω)
  bufioReader : Option (HufBufioReadWriter ρ)

/-- A run of the encoder: the local pointer `self` and the caller's objects. -/
abbrev EncodeRun (ρ ω : Type) : Type := SelfRun (HufEncoder ρ ω) ρ ω

/-! ## The objects of an encoder -/

namespace EncodeRun

open SelfRun

/-- The configuration of the encoder. -/
def config : Place Fault (EncodeRun ρ ω) (HufConfig ρ ω) where
  load s := do deref (← deref s.1).config
  store config := onSelf fun self => { self with config := some config }

/-- The bit writer of the encoder. -/
def bitWriter : Place Fault (EncodeRun ρ ω) HufBitReadWriter where
  load s := do return (← deref s.1).bitWriter
  store bitWriter := onSelf fun self => { self with bitWriter }

/-- The tree of the encoder, with the heap. -/
def huffmanTree : Place Fault (EncodeRun ρ ω) TreeStore where
  load s := do return ⟨← deref (← deref s.1).huffmanTree, s.2.heap⟩
  store t s := onSelf (fun self => { self with huffmanTree := some t.tree })
    (s.1, { s.2 with heap := t.heap })

/-- The symbol mapping of the encoder. -/
def mapping : Place Fault (EncodeRun ρ ω) HufSymbolMapping where
  load s := do deref (← deref s.1).mapping
  store mapping := onSelf fun self => { self with mapping := some mapping }

/-- The histogram of the encoder. -/
def histogram : Place Fault (EncodeRun ρ ω) HufHistogram where
  load s := do deref (← deref s.1).histogram
  store histogram := onSelf fun self => { self with histogram := some histogram }

/-- The tree and the histogram of the encoder, with the heap. -/
def histogramTree : Place Fault (EncodeRun ρ ω) HistogramTree where
  load s := do
    return ⟨← deref (← deref s.1).huffmanTree, ← deref (← deref s.1).histogram, s.2.heap⟩
  store t s := onSelf
    (fun self => { self with huffmanTree := some t.tree, histogram := some t.histogram })
    (s.1, { s.2 with heap := t.heap })

/-- The buffered reader of the encoder, with the input. -/
def bufioReader : Place Fault (EncodeRun ρ ω) (Buffered ρ) where
  load s := do return ⟨← deref (← deref s.1).bufioReader, s.2.input⟩
  store b s := onSelf (fun self => { self with bufioReader := some b.bufio })
    (s.1, { s.2 with input := b.stream })

/-- The buffered writer of the encoder, with the output. -/
def bufioWriter : Place Fault (EncodeRun ρ ω) (Buffered ω) where
  load s := do return ⟨← deref (← deref s.1).bufioWriter, s.2.output⟩
  store b s := onSelf (fun self => { self with bufioWriter := some b.bufio })
    (s.1, { s.2 with output := b.stream })

end EncodeRun

/-! ## Creation and release -/

/-- `huf_encoder_init` -/
def hufEncoderInit (config : Option (HufConfig ρ ω)) : CRoutine (EncodeRun ρ ω) Unit := do
  let config ← requireParam config
  Routine.within SelfRun.allocator hufMalloc
  Routine.modify fun s => (some ⟨none, ⟨0, 0⟩, none, none, none, none, none⟩, s.2)
  let blocksize := if config.blocksize = 0 then config.length else config.blocksize
  Routine.within (SelfRun.creating (·.config) fun c self => { self with config := c })
    (hufConfigInit { config with blocksize })
  Routine.within (SelfRun.creating (·.huffmanTree) fun t self => { self with huffmanTree := t })
    hufTreeInit
  Routine.within (SelfRun.creating (·.mapping) fun m self => { self with mapping := m })
    (hufSymbolMappingInit hufAsciiCount)
  Routine.within (SelfRun.creating (·.histogram) fun h self => { self with histogram := h })
    (hufHistogramInit 1 hufHistogramLen)
  let config ← Routine.within EncodeRun.config Routine.get
  Routine.within (SelfRun.creating (·.bufioWriter) fun b self => { self with bufioWriter := b })
    (hufBufioReadWriterInit config.writer config.writerBufferSize)
  let config ← Routine.within EncodeRun.config Routine.get
  Routine.within (SelfRun.creating (·.bufioReader) fun b self => { self with bufioReader := b })
    (hufBufioReadWriterInit config.reader config.readerBufferSize)

/-- `huf_encoder_free` -/
def hufEncoderFree : CRoutine (EncodeRun ρ ω) Unit := do
  Routine.within
    (SelfRun.releasingTree (·.huffmanTree) fun t self => { self with huffmanTree := t }) hufTreeFree
  Routine.within (SelfRun.releasing (·.bufioWriter) fun b self => { self with bufioWriter := b })
    hufBufioReadWriterFree
  Routine.within (SelfRun.releasing (·.bufioReader) fun b self => { self with bufioReader := b })
    hufBufioReadWriterFree
  Routine.within (SelfRun.releasing (·.histogram) fun h self => { self with histogram := h })
    hufHistogramFree
  Routine.within (SelfRun.releasing (·.mapping) fun m self => { self with mapping := m })
    hufSymbolMappingFree
  Routine.within (SelfRun.releasing (·.config) fun c self => { self with config := c })
    hufConfigFree
  Routine.modify fun s => (none, s.2)

/-! ## Encoding -/

/-- One iteration of `__huf_create_char_coding`. -/
def createCoding (index : ℕ) : CRoutine (EncodeRun ρ ω) Unit := do
  let t ← Routine.within EncodeRun.huffmanTree Routine.get
  let node ← Routine.demand (load t.tree.leaves index)
  if node ≠ none then
    let coding ← Routine.demand (hufNodeToString t.heap huf1kibBuffer node)
    let element ← Routine.within SelfRun.allocator (hufSymbolMappingElementInit coding)
    Routine.within EncodeRun.mapping (hufSymbolMappingInsert index element)

/-- `__huf_create_char_coding` -/
def hufCreateCharCoding : CRoutine (EncodeRun ρ ω) Unit := do
  (List.range (← Routine.within EncodeRun.mapping Routine.get).length).forM createCoding

/-- The body of the innermost loop of `__huf_encode_block`: write one bit and,
when that fills the byte, the byte. -/
def writeBit (bit : UInt8) : CRoutine (EncodeRun ρ ω) Unit := do
  Routine.within EncodeRun.bitWriter (Routine.modify fun self => hufBitWrite self bit)
  let bitWriter ← Routine.within EncodeRun.bitWriter Routine.get
  if bitWriter.offset = 0 then
    Routine.within EncodeRun.bufioWriter (hufBufioWriteUint8 bitWriter.bits)
    Routine.within EncodeRun.bitWriter (Routine.modify fun _ => hufBitReadWriterReset)

/-- The loop over the characters of a coding, from the last to the first. -/
def writeCoding (element : HufSymbolMappingElement) : ℕ → CRoutine (EncodeRun ρ ω) Unit
  | 0 => pure ()
  | index + 1 => do
    writeBit (← Routine.demand (load element.coding index))
    writeCoding element index

/-- The encoding of one byte of the block. -/
def encodeByte (byte : UInt8) : CRoutine (EncodeRun ρ ω) Unit := do
  let element ← Routine.within EncodeRun.mapping (hufSymbolMappingGet byte.toNat)
  let element ← Routine.demand (deref element)
  writeCoding element element.length

/-- `__huf_encode_block` -/
def hufEncodeBlock (buf : List UInt8) : CRoutine (EncodeRun ρ ω) Unit := do
  buf.forM encodeByte
  let bitWriter ← Routine.within EncodeRun.bitWriter Routine.get
  if bitWriter.offset ≠ 8 then
    Routine.within EncodeRun.bufioWriter (hufBufioWriteUint8 bitWriter.bits)

/-- The local variables of `huf_encode` that outlive an iteration. -/
structure EncodeLocals where
  buf : List UInt8
  treeHead : List Int16
  leftToRead : ℕ
  deriving DecidableEq

/-- One iteration of the loop of `huf_encode`. -/
def encodeNextBlock (l : EncodeLocals) : CRoutine (EncodeRun ρ ω) (LoopStep EncodeLocals) := do
  let blocksize := (← Routine.within EncodeRun.config Routine.get).blocksize
  let needToRead := if l.leftToRead < blocksize then l.leftToRead else blocksize
  let dest ← Routine.demand (slice l.buf 0 needToRead)
  let block ← Routine.within EncodeRun.bufioReader (hufBufioRead dest)
  let buf ← Routine.demand (memcpy l.buf 0 block)
  Routine.within EncodeRun.histogram (hufHistogramPopulate block)
  Routine.within EncodeRun.histogramTree hufTreeFromHistogram
  hufCreateCharCoding
  let t ← Routine.within EncodeRun.huffmanTree Routine.get
  let (treeHead, treeLength) ← Routine.demand (hufTreeSerialize t l.treeHead)
  let actualTreeLength := Int16.ofNat treeLength
  Routine.within EncodeRun.bufioWriter (hufBufioWrite (leBytes 8 needToRead))
  Routine.within EncodeRun.bufioWriter (hufBufioWrite (wordBytes actualTreeLength))
  let words ← Routine.demand (slice treeHead 0 treeLength)
  Routine.within EncodeRun.bufioWriter (hufBufioWrite (wordsBytes words))
  Routine.within EncodeRun.bitWriter (Routine.modify fun _ => hufBitReadWriterReset)
  hufEncodeBlock block
  let leftToRead := sizeSub l.leftToRead needToRead
  if leftToRead ≠ 0 then
    Routine.within EncodeRun.huffmanTree hufTreeReset
    Routine.within EncodeRun.histogram hufHistogramReset
    Routine.within EncodeRun.mapping hufSymbolMappingReset
  return .next ⟨buf, treeHead, leftToRead⟩

/-- The loop of `huf_encode` and the final flush. Every block takes at least one
byte, so there are at most as many as bytes. -/
def encodeBlocks : CRoutine (EncodeRun ρ ω) Unit := do
  let config ← Routine.within EncodeRun.config Routine.get
  Routine.within SelfRun.allocator hufMalloc
  let _ ← Routine.whileLoop .endless
    (fun l => pure (decide (l.leftToRead > 0)))
    encodeNextBlock (config.length + 1)
    ⟨List.replicate config.blocksize 0, List.replicate hufBtreeLen 0, config.length⟩
  Routine.within EncodeRun.bufioWriter hufBufioReadWriterFlush

/-- `huf_encode` -/
def hufEncode (config : Option (HufConfig ρ ω)) : CRoutine (World ρ ω) Unit :=
  Routine.withLocal none
    (Routine.ensuring
      (do
        hufEncoderInit config
        encodeBlocks)
      hufEncoderFree)

end LibHuffman
