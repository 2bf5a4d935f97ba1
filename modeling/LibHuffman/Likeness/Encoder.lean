/-
# The encoder on streams that are alike

`huf_encode` does the same on streams that answer alike: it leaves with the same code, or the
same fault, and with streams that are alike again. It needs no promise about its input. Its
writes are never longer than a serialized tree or its buffer.
-/

import LibHuffman.Likeness.Config
import LibHuffman.Model.Encoder
import LibHuffman.Trees.Linked

namespace LibHuffman

open Foundation

variable {Stray : Fault → Prop} {ρ ρ' ω ω' α : Type}

/-- Two encoders that differ in their streams only. -/
structure EncodersAlike (L : Likeness Stray ρ ρ') (M : Likeness Stray ω ω')
    (e : HufEncoder ρ ω) (e' : HufEncoder ρ' ω') : Prop where
  config : Option.Rel (ConfigsAlike L M) e.config e'.config
  bitWriter : e'.bitWriter = e.bitWriter
  huffmanTree : e'.huffmanTree = e.huffmanTree
  mapping : e'.mapping = e.mapping
  histogram : e'.histogram = e.histogram
  bufioWriter : Option.Rel M.buffers e.bufioWriter e'.bufioWriter
  bufioReader : Option.Rel L.buffers e.bufioReader e'.bufioReader

/-- Two runs of an encoder. -/
abbrev EncodesAlike (L : Likeness Stray ρ ρ') (M : Likeness Stray ω ω') :
    EncodeRun ρ ω → EncodeRun ρ' ω' → Prop :=
  SelfRunsAlike (EncodersAlike L M) L M

variable {L : Likeness Stray ρ ρ'} {M : Likeness Stray ω ω'}

/-! ## The objects of an encoder -/

theorem EncodeRun.config_corresponds :
    Corresponds EncodeRun.config EncodeRun.config (EncodesAlike L M) (ConfigsAlike L M) := by
  apply SelfRun.place_corresponds (fun _ => rfl) (fun _ => rfl)
  rintro ⟨config, _, _, _, _, _, _⟩ ⟨config', _, _, _, _, _, _⟩ w w' he hw
  cases (show Option.Rel (ConfigsAlike L M) config config' from he.config) with
  | none => exact .inl ⟨_, rfl, rfl⟩
  | some hc =>
      exact .inr ⟨_, _, rfl, rfl, hc, fun _ _ h => ⟨.some { he with config := .some h }, hw⟩⟩

theorem EncodeRun.bitWriter_corresponds :
    Corresponds EncodeRun.bitWriter EncodeRun.bitWriter (EncodesAlike L M) Eq := by
  apply SelfRun.place_corresponds (fun _ => rfl) (fun _ => rfl)
  intro e e' w w' he hw
  refine .inr ⟨e.bitWriter, e'.bitWriter, rfl, rfl, he.bitWriter.symm, ?_⟩
  rintro b _ rfl
  exact ⟨.some { he with bitWriter := rfl }, hw⟩

theorem EncodeRun.mapping_corresponds :
    Corresponds EncodeRun.mapping EncodeRun.mapping (EncodesAlike L M) Eq := by
  apply SelfRun.place_corresponds (fun _ => rfl) (fun _ => rfl)
  rintro ⟨_, _, _, mapping, _, _, _⟩ ⟨_, _, _, mapping', _, _, _⟩ w w' he hw
  obtain rfl : mapping' = mapping := he.mapping
  cases mapping' with
  | none => exact .inl ⟨_, rfl, rfl⟩
  | some m =>
      refine .inr ⟨m, m, rfl, rfl, rfl, ?_⟩
      rintro m' _ rfl
      exact ⟨.some { he with mapping := rfl }, hw⟩

theorem EncodeRun.histogram_corresponds :
    Corresponds EncodeRun.histogram EncodeRun.histogram (EncodesAlike L M) Eq := by
  apply SelfRun.place_corresponds (fun _ => rfl) (fun _ => rfl)
  rintro ⟨_, _, _, _, histogram, _, _⟩ ⟨_, _, _, _, histogram', _, _⟩ w w' he hw
  obtain rfl : histogram' = histogram := he.histogram
  cases histogram' with
  | none => exact .inl ⟨_, rfl, rfl⟩
  | some h =>
      refine .inr ⟨h, h, rfl, rfl, rfl, ?_⟩
      rintro h' _ rfl
      exact ⟨.some { he with histogram := rfl }, hw⟩

theorem EncodeRun.huffmanTree_corresponds :
    Corresponds EncodeRun.huffmanTree EncodeRun.huffmanTree (EncodesAlike L M) Eq := by
  apply SelfRun.place_corresponds (fun _ => rfl) (fun _ => rfl)
  rintro ⟨_, _, tree, _, _, _, _⟩ ⟨_, _, tree', _, _, _, _⟩ ⟨_, _, heap⟩ ⟨_, _, heap'⟩ he hw
  obtain rfl : tree' = tree := he.huffmanTree
  obtain rfl : heap' = heap := hw.heap
  cases tree' with
  | none => exact .inl ⟨_, rfl, rfl⟩
  | some t =>
      refine .inr ⟨_, _, rfl, rfl, rfl, ?_⟩
      rintro t' _ rfl
      exact ⟨.some { he with huffmanTree := rfl }, { hw with heap := rfl }⟩

theorem EncodeRun.histogramTree_corresponds :
    Corresponds EncodeRun.histogramTree EncodeRun.histogramTree (EncodesAlike L M) Eq := by
  apply SelfRun.place_corresponds (fun _ => rfl) (fun _ => rfl)
  rintro ⟨_, _, tree, _, histogram, _, _⟩ ⟨_, _, tree', _, histogram', _, _⟩ ⟨_, _, heap⟩
    ⟨_, _, heap'⟩ he hw
  obtain rfl : tree' = tree := he.huffmanTree
  obtain rfl : histogram' = histogram := he.histogram
  obtain rfl : heap' = heap := hw.heap
  cases tree' with
  | none => exact .inl ⟨_, rfl, rfl⟩
  | some t =>
      cases histogram' with
      | none => exact .inl ⟨_, rfl, rfl⟩
      | some h =>
          refine .inr ⟨_, _, rfl, rfl, rfl, ?_⟩
          rintro t' _ rfl
          exact ⟨.some { he with huffmanTree := rfl, histogram := rfl }, { hw with heap := rfl }⟩

theorem EncodeRun.bufioReader_corresponds :
    Corresponds EncodeRun.bufioReader EncodeRun.bufioReader (EncodesAlike L M) L.buffered := by
  apply SelfRun.place_corresponds (fun _ => rfl) (fun _ => rfl)
  rintro ⟨_, _, _, _, _, _, reader⟩ ⟨_, _, _, _, _, _, reader'⟩ w w' he hw
  cases (show Option.Rel L.buffers reader reader' from he.bufioReader) with
  | none => exact .inl ⟨_, rfl, rfl⟩
  | some hb =>
      refine .inr ⟨_, _, rfl, rfl, ⟨hb, hw.input⟩, ?_⟩
      exact fun _ _ h => ⟨.some { he with bufioReader := .some h.bufio },
        { hw with input := h.stream }⟩

theorem EncodeRun.bufioWriter_corresponds :
    Corresponds EncodeRun.bufioWriter EncodeRun.bufioWriter (EncodesAlike L M) M.buffered := by
  apply SelfRun.place_corresponds (fun _ => rfl) (fun _ => rfl)
  rintro ⟨_, _, _, _, _, writer, _⟩ ⟨_, _, _, _, _, writer', _⟩ w w' he hw
  cases (show Option.Rel M.buffers writer writer' from he.bufioWriter) with
  | none => exact .inl ⟨_, rfl, rfl⟩
  | some hb =>
      refine .inr ⟨_, _, rfl, rfl, ⟨hb, hw.output⟩, ?_⟩
      exact fun _ _ h => ⟨.some { he with bufioWriter := .some h.bufio },
        { hw with output := h.stream }⟩

/-! ## Encoding -/

theorem createCoding_mirrors (index : ℕ) :
    Mirrors Stray (EncodesAlike L M) (createCoding index) (createCoding index)
      fun _ => True := by
  apply Mirrors.read_bind EncodeRun.huffmanTree_corresponds
  rintro t _ rfl
  apply Mirrors.demand_bind
  intro node _
  apply Mirrors.ite
  · intro _
    apply Mirrors.demand_bind
    intro coding _
    apply ((Mirrors.refl _).within SelfRun.allocator_corresponds).bind
    intro element _
    exact (Mirrors.refl _).within EncodeRun.mapping_corresponds
  · exact fun _ => Mirrors.pure trivial

theorem hufCreateCharCoding_mirrors :
    Mirrors Stray (EncodesAlike L M) hufCreateCharCoding hufCreateCharCoding
      fun _ => True := by
  apply Mirrors.read_bind EncodeRun.mapping_corresponds
  rintro m _ rfl
  exact Mirrors.forM _ fun index _ => createCoding_mirrors index

/-- The bytes of a payload are written one by one. -/
theorem writeByte_mirrors (hbyte : M.Allows 1) (byte : UInt8) :
    Mirrors Stray (EncodesAlike L M)
      (Routine.within EncodeRun.bufioWriter (hufBufioWriteUint8 byte))
      (Routine.within EncodeRun.bufioWriter (hufBufioWriteUint8 byte)) fun _ => True :=
  Mirrors.within EncodeRun.bufioWriter_corresponds (hufBufioWrite_mirrors hbyte)

theorem writeBit_mirrors (hbyte : M.Allows 1) (bit : UInt8) :
    Mirrors Stray (EncodesAlike L M) (writeBit bit) (writeBit bit) fun _ => True := by
  apply ((Mirrors.refl _).within EncodeRun.bitWriter_corresponds).bind
  intro _ _
  apply Mirrors.read_bind EncodeRun.bitWriter_corresponds
  rintro b _ rfl
  apply Mirrors.ite
  · intro _
    apply (writeByte_mirrors hbyte _).bind
    intro _ _
    exact (Mirrors.refl _).within EncodeRun.bitWriter_corresponds
  · exact fun _ => Mirrors.pure trivial

theorem writeCoding_mirrors (hbyte : M.Allows 1) (element : HufSymbolMappingElement) (n : ℕ) :
    Mirrors Stray (EncodesAlike L M) (writeCoding element n) (writeCoding element n)
      fun _ => True := by
  induction n with
  | zero => exact Mirrors.pure trivial
  | succ index ih =>
      apply Mirrors.demand_bind
      intro bit _
      exact (writeBit_mirrors hbyte bit).bind fun _ _ => ih

theorem encodeByte_mirrors (hbyte : M.Allows 1) (byte : UInt8) :
    Mirrors Stray (EncodesAlike L M) (encodeByte byte) (encodeByte byte) fun _ => True := by
  apply ((Mirrors.refl _).within EncodeRun.mapping_corresponds).bind
  intro element _
  apply Mirrors.demand_bind
  exact fun element _ => writeCoding_mirrors hbyte element _

theorem hufEncodeBlock_mirrors (hbyte : M.Allows 1) (buf : List UInt8) :
    Mirrors Stray (EncodesAlike L M) (hufEncodeBlock buf) (hufEncodeBlock buf)
      fun _ => True := by
  apply (Mirrors.forM buf fun byte _ => encodeByte_mirrors hbyte byte).bind
  intro _ _
  apply Mirrors.read_bind EncodeRun.bitWriter_corresponds
  rintro b _ rfl
  apply Mirrors.ite
  · exact fun _ => writeByte_mirrors hbyte _
  · exact fun _ => Mirrors.pure trivial

/-- One iteration. A serialized tree is not longer than the buffer it is written to. -/
theorem encodeNextBlock_mirrors (hlimit : M.Allows (2 * hufBtreeLen)) (l : EncodeLocals)
    (hl : l.treeHead.length = hufBtreeLen) :
    Mirrors Stray (EncodesAlike L M) (encodeNextBlock l) (encodeNextBlock l)
      fun step => step.locals.treeHead.length = hufBtreeLen := by
  have hwrite {data : List UInt8} (hdata : data.length ≤ 2048) :
      Mirrors Stray (EncodesAlike L M)
        (Routine.within EncodeRun.bufioWriter (hufBufioWrite data))
        (Routine.within EncodeRun.bufioWriter (hufBufioWrite data)) fun _ => True :=
    (hufBufioWrite_mirrors (M.allows_of_le _ _ hdata hlimit)).within
      EncodeRun.bufioWriter_corresponds
  apply Mirrors.read_bind EncodeRun.config_corresponds
  intro c c' hc
  dsimp only
  rw [hc.blocksize]
  apply Mirrors.demand_bind
  intro dest _
  apply ((hufBufioRead_mirrors dest).within EncodeRun.bufioReader_corresponds).bind
  intro block _
  apply Mirrors.demand_bind
  intro buf _
  apply ((Mirrors.refl _).within EncodeRun.histogram_corresponds).bind
  intro _ _
  apply ((Mirrors.refl _).within EncodeRun.histogramTree_corresponds).bind
  intro _ _
  apply hufCreateCharCoding_mirrors.bind
  intro _ _
  apply Mirrors.read_bind EncodeRun.huffmanTree_corresponds
  rintro t _ rfl
  apply Mirrors.demand_bind
  rintro ⟨treeHead, treeLength⟩ hserialize
  have hhead : treeHead.length = 1024 := (length_hufTreeSerialize hserialize).trans hl
  apply (hwrite ?_).bind
  · intro _ _
    apply (hwrite ?_).bind
    · intro _ _
      apply Mirrors.demand_bind
      intro words hwords
      apply (hwrite ?_).bind
      · intro _ _
        apply ((Mirrors.refl _).within EncodeRun.bitWriter_corresponds).bind
        intro _ _
        apply (hufEncodeBlock_mirrors (M.allows_of_le _ _ (by decide) hlimit) block).bind
        intro _ _
        apply Mirrors.ite
        · intro _
          apply ((Mirrors.refl _).within EncodeRun.huffmanTree_corresponds).bind
          intro _ _
          apply ((Mirrors.refl _).within EncodeRun.histogram_corresponds).bind
          intro _ _
          apply ((Mirrors.refl _).within EncodeRun.mapping_corresponds).bind
          intro _ _
          exact Mirrors.pure hhead
        · exact fun _ => Mirrors.pure hhead
      · have hle : 0 + treeLength ≤ treeHead.length := le_of_slice hwords
        rw [length_wordsBytes, length_slice hwords]
        omega
    · rw [length_wordBytes]
      decide
  · rw [length_leBytes]
    decide

/-- All blocks and the final flush. -/
theorem encodeBlocks_mirrors (hlimit : M.Allows (2 * hufBtreeLen)) :
    Mirrors Stray (EncodesAlike L M) encodeBlocks encodeBlocks fun _ => True := by
  apply Mirrors.read_bind EncodeRun.config_corresponds
  intro c c' hc
  apply ((Mirrors.refl _).within SelfRun.allocator_corresponds).bind
  intro _ _
  rw [hc.length, hc.blocksize]
  apply Mirrors.bind (V := fun l : EncodeLocals => l.treeHead.length = hufBtreeLen)
  · apply Mirrors.whileLoop
    · exact fun _ _ => Mirrors.pure trivial
    · exact fun l hl => encodeNextBlock_mirrors hlimit l hl
    · exact List.length_replicate
  · intro _ _
    exact hufBufioReadWriterFlush_mirrors.within EncodeRun.bufioWriter_corresponds

/-! ## Creation and release -/

theorem hufEncoderInit_mirrors {config : Option (HufConfig ρ ω)}
    {config' : Option (HufConfig ρ' ω')} (hconfig : Option.Rel (ConfigsAlike L M) config config') :
    Mirrors Stray (EncodesAlike L M) (hufEncoderInit config) (hufEncoderInit config')
      fun _ => True := by
  apply requireParam_mirrors hconfig
  intro c c' hc
  apply ((Mirrors.refl _).within SelfRun.allocator_corresponds).bind
  intro _ _
  apply Mirrors.bind (V := fun _ => True)
  · exact Mirrors.modify fun _ _ h => ⟨.some ⟨.none, rfl, rfl, rfl, rfl, .none, .none⟩, h.world⟩
  intro _ _
  dsimp only
  rw [hc.blocksize, hc.length]
  apply Mirrors.bind
  · apply Mirrors.within
    · apply SelfRun.creating_corresponds
      · exact fun e e' he => he.config
      · exact fun e e' o o' he ho => { he with config := ho }
    · apply hufConfigInit_mirrors
      exact { hc with blocksize := rfl, length := rfl }
  intro _ _
  apply Mirrors.bind
  · apply SelfRun.creating_same
    · exact fun e e' he => he.huffmanTree
    · exact fun e e' o he => { he with huffmanTree := rfl }
  intro _ _
  apply Mirrors.bind
  · apply SelfRun.creating_same
    · exact fun e e' he => he.mapping
    · exact fun e e' o he => { he with mapping := rfl }
  intro _ _
  apply Mirrors.bind
  · apply SelfRun.creating_same
    · exact fun e e' he => he.histogram
    · exact fun e e' o he => { he with histogram := rfl }
  intro _ _
  apply Mirrors.read_bind EncodeRun.config_corresponds
  intro d d' hd
  rw [hd.writerBufferSize]
  apply Mirrors.bind
  · apply (hufBufioReadWriterInit_mirrors hd.writer hd.writerAllowed).within
    apply SelfRun.creating_corresponds
    · exact fun e e' he => he.bufioWriter
    · exact fun e e' o o' he ho => { he with bufioWriter := ho }
  intro _ _
  apply Mirrors.read_bind EncodeRun.config_corresponds
  intro d d' hd
  rw [hd.readerBufferSize]
  apply (hufBufioReadWriterInit_mirrors hd.reader hd.readerAllowed).within
  apply SelfRun.creating_corresponds
  · exact fun e e' he => he.bufioReader
  · exact fun e e' o o' he ho => { he with bufioReader := ho }

theorem hufEncoderFree_mirrors :
    Mirrors Stray (EncodesAlike L M) hufEncoderFree hufEncoderFree fun _ => True := by
  apply Mirrors.bind
  · apply SelfRun.releasingTree_same
    · exact fun e e' he => he.huffmanTree
    · exact fun e e' o he => { he with huffmanTree := rfl }
  intro _ _
  apply Mirrors.bind
  · apply hufBufioReadWriterFree_mirrors.within
    apply SelfRun.releasing_corresponds
    · exact fun e e' he => he.bufioWriter
    · exact fun e e' o o' he ho => { he with bufioWriter := ho }
  intro _ _
  apply Mirrors.bind
  · apply hufBufioReadWriterFree_mirrors.within
    apply SelfRun.releasing_corresponds
    · exact fun e e' he => he.bufioReader
    · exact fun e e' o o' he ho => { he with bufioReader := ho }
  intro _ _
  apply Mirrors.bind
  · apply SelfRun.releasing_same
    · exact fun e e' he => he.histogram
    · exact fun e e' o he => { he with histogram := rfl }
  intro _ _
  apply Mirrors.bind
  · apply SelfRun.releasing_same
    · exact fun e e' he => he.mapping
    · exact fun e e' o he => { he with mapping := rfl }
  intro _ _
  apply Mirrors.bind
  · apply hufConfigFree_mirrors.within
    apply SelfRun.releasing_corresponds
    · exact fun e e' he => he.config
    · exact fun e e' o o' he ho => { he with config := ho }
  intro _ _
  exact Mirrors.modify fun _ _ h => ⟨.none, h.world⟩

/-- The encoder does the same on streams that are alike, as long as these are promised writes
that are not longer than a serialized tree. -/
theorem hufEncode_mirrors (hlimit : M.Allows (2 * hufBtreeLen))
    {config : Option (HufConfig ρ ω)} {config' : Option (HufConfig ρ' ω')}
    (hconfig : Option.Rel (ConfigsAlike L M) config config') :
    Mirrors Stray (WorldsAlike L M) (hufEncode config) (hufEncode config') fun _ => True := by
  have hrun : Mirrors Stray (EncodesAlike L M)
      (Routine.ensuring (do hufEncoderInit config; encodeBlocks) hufEncoderFree)
      (Routine.ensuring (do hufEncoderInit config'; encodeBlocks) hufEncoderFree)
      fun _ => True := by
    apply Mirrors.ensuring
    · exact (hufEncoderInit_mirrors hconfig).bind fun _ _ => encodeBlocks_mirrors hlimit
    · exact hufEncoderFree_mirrors
  apply Mirrors.withLocal (L := Option.Rel (EncodersAlike L M)) .none
  intro s t h
  exact (hrun s t ⟨h.1, h.2⟩).mono (fun _ _ h => ⟨h.self, h.world⟩) fun _ ha => ha

end LibHuffman
