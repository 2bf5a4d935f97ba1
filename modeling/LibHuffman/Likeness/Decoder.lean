/-
# The decoder on streams that are alike

`huf_decode` does the same on streams that answer alike, whatever they deliver. It writes
its symbols one by one or through its buffer.
-/

import LibHuffman.Likeness.Config
import LibHuffman.Model.Decoder

namespace LibHuffman

open Foundation

variable {Stray : Fault → Prop} {ρ ρ' ω ω' α : Type}

/-- Two decoders that differ in their streams only. -/
structure DecodersAlike (L : Likeness Stray ρ ρ') (M : Likeness Stray ω ω')
    (d : HufDecoder ρ ω) (d' : HufDecoder ρ' ω') : Prop where
  config : Option.Rel (ConfigsAlike L M) d.config d'.config
  huffmanTree : d'.huffmanTree = d.huffmanTree
  lastNode : d'.lastNode = d.lastNode
  bufioWriter : Option.Rel M.buffers d.bufioWriter d'.bufioWriter
  bufioReader : Option.Rel L.buffers d.bufioReader d'.bufioReader

/-- Two runs of a decoder. -/
abbrev DecodesAlike (L : Likeness Stray ρ ρ') (M : Likeness Stray ω ω') :
    DecodeRun ρ ω → DecodeRun ρ' ω' → Prop :=
  SelfRunsAlike (DecodersAlike L M) L M

variable {L : Likeness Stray ρ ρ'} {M : Likeness Stray ω ω'}

/-! ## The objects of a decoder -/

theorem DecodeRun.self_corresponds :
    Corresponds DecodeRun.self DecodeRun.self (DecodesAlike L M) (DecodersAlike L M) := by
  apply SelfRun.place_corresponds (fun _ => rfl) (fun _ => rfl)
  exact fun d d' w w' hd hw => .inr ⟨d, d', rfl, rfl, hd, fun _ _ h => ⟨.some h, hw⟩⟩

theorem DecodeRun.config_corresponds :
    Corresponds DecodeRun.config DecodeRun.config (DecodesAlike L M) (ConfigsAlike L M) := by
  apply SelfRun.place_corresponds (fun _ => rfl) (fun _ => rfl)
  rintro ⟨config, _, _, _, _⟩ ⟨config', _, _, _, _⟩ w w' hd hw
  cases (show Option.Rel (ConfigsAlike L M) config config' from hd.config) with
  | none => exact .inl ⟨_, rfl, rfl⟩
  | some hc =>
      exact .inr ⟨_, _, rfl, rfl, hc, fun _ _ h => ⟨.some { hd with config := .some h }, hw⟩⟩

theorem DecodeRun.huffmanTree_corresponds :
    Corresponds DecodeRun.huffmanTree DecodeRun.huffmanTree (DecodesAlike L M) Eq := by
  apply SelfRun.place_corresponds (fun _ => rfl) (fun _ => rfl)
  rintro ⟨_, tree, _, _, _⟩ ⟨_, tree', _, _, _⟩ ⟨_, _, heap⟩ ⟨_, _, heap'⟩ hd hw
  obtain rfl : tree' = tree := hd.huffmanTree
  obtain rfl : heap' = heap := hw.heap
  cases tree' with
  | none => exact .inl ⟨_, rfl, rfl⟩
  | some t =>
      refine .inr ⟨_, _, rfl, rfl, rfl, ?_⟩
      rintro t' _ rfl
      exact ⟨.some { hd with huffmanTree := rfl }, { hw with heap := rfl }⟩

theorem DecodeRun.bufioReader_corresponds :
    Corresponds DecodeRun.bufioReader DecodeRun.bufioReader (DecodesAlike L M) L.buffered := by
  apply SelfRun.place_corresponds (fun _ => rfl) (fun _ => rfl)
  rintro ⟨_, _, _, _, reader⟩ ⟨_, _, _, _, reader'⟩ w w' hd hw
  cases (show Option.Rel L.buffers reader reader' from hd.bufioReader) with
  | none => exact .inl ⟨_, rfl, rfl⟩
  | some hb =>
      refine .inr ⟨_, _, rfl, rfl, ⟨hb, hw.input⟩, ?_⟩
      exact fun _ _ h => ⟨.some { hd with bufioReader := .some h.bufio },
        { hw with input := h.stream }⟩

theorem DecodeRun.bufioWriter_corresponds :
    Corresponds DecodeRun.bufioWriter DecodeRun.bufioWriter (DecodesAlike L M) M.buffered := by
  apply SelfRun.place_corresponds (fun _ => rfl) (fun _ => rfl)
  rintro ⟨_, _, _, writer, _⟩ ⟨_, _, _, writer', _⟩ w w' hd hw
  cases (show Option.Rel M.buffers writer writer' from hd.bufioWriter) with
  | none => exact .inl ⟨_, rfl, rfl⟩
  | some hb =>
      refine .inr ⟨_, _, rfl, rfl, ⟨hb, hw.output⟩, ?_⟩
      exact fun _ _ h => ⟨.some { hd with bufioWriter := .some h.bufio },
        { hw with output := h.stream }⟩

/-! ## Decoding -/

theorem setLastNode_mirrors (node : Option ℕ) :
    Mirrors Stray (DecodesAlike L M)
      (Routine.within DecodeRun.self
        (Routine.modify fun self => { self with lastNode := node }) : CRoutine (DecodeRun ρ ω) Unit)
      (Routine.within DecodeRun.self
        (Routine.modify fun self => { self with lastNode := node }) :
          CRoutine (DecodeRun ρ' ω') Unit)
      fun _ => True := by
  apply Mirrors.within DecodeRun.self_corresponds
  exact Mirrors.modify fun _ _ hd => { hd with lastNode := rfl }

theorem decodeBit_mirrors (hbyte : M.Allows 1) (bit : Bool) :
    Mirrors Stray (DecodesAlike L M) (decodeBit bit) (decodeBit bit) fun _ => True := by
  apply Mirrors.get_bind
  intro s t hs
  apply Mirrors.read_bind DecodeRun.self_corresponds
  intro d d' hd
  rw [hs.world.heap, hd.lastNode]
  apply Mirrors.demand_bind
  intro node _
  apply (setLastNode_mirrors _).bind
  intro _ _
  apply Mirrors.ite
  · exact fun _ => Mirrors.fail _
  intro _
  apply Mirrors.get_bind
  intro s t hs
  rw [hs.world.heap]
  apply Mirrors.demand_bind
  intro next _
  apply Mirrors.ite
  · exact fun _ => Mirrors.pure trivial
  intro _
  apply ((hufBufioWrite_mirrors hbyte).within DecodeRun.bufioWriter_corresponds).bind
  intro _ _
  apply Mirrors.read_bind DecodeRun.huffmanTree_corresponds
  rintro tree _ rfl
  apply (setLastNode_mirrors _).bind
  exact fun _ _ => Mirrors.pure trivial

theorem decodeBits_mirrors (hbyte : M.Allows 1) (byte : UInt8) (len n restored : ℕ) :
    Mirrors Stray (DecodesAlike L M) (decodeBits byte len n restored)
      (decodeBits byte len n restored) fun _ => True := by
  induction n generalizing restored with
  | zero => exact Mirrors.pure trivial
  | succ n ih =>
      apply (decodeBit_mirrors hbyte _).bind
      intro done _
      apply Mirrors.ite
      · intro _
        apply Mirrors.ite
        · exact fun _ => Mirrors.pure trivial
        · exact fun _ => ih _
      · exact fun _ => ih _

/-- The loop over the bytes of a payload. -/
theorem decodePayload_mirrors (hbyte : M.Allows 1) (len fuel : ℕ) :
    Mirrors Stray (DecodesAlike L M)
      (do
        let _ ← Routine.whileLoop .endless
          (fun l : ℕ × UInt8 => pure (decide (l.1 < len)))
          (fun l => do
            let byte ← Routine.within DecodeRun.bufioReader (hufBufioReadUint8 l.2)
            let restored ← decodeBits byte len 8 l.1
            return .next (restored, byte)) fuel (0, 0) : CRoutine (DecodeRun ρ ω) Unit)
      (do
        let _ ← Routine.whileLoop .endless
          (fun l : ℕ × UInt8 => pure (decide (l.1 < len)))
          (fun l => do
            let byte ← Routine.within DecodeRun.bufioReader (hufBufioReadUint8 l.2)
            let restored ← decodeBits byte len 8 l.1
            return .next (restored, byte)) fuel (0, 0) : CRoutine (DecodeRun ρ' ω') Unit)
      fun _ => True := by
  apply Mirrors.bind (V := fun _ => True)
  · apply Mirrors.whileLoop
    · exact fun _ _ => Mirrors.pure trivial
    · intro l _
      apply ((hufBufioReadUint8_mirrors _).within DecodeRun.bufioReader_corresponds).bind
      intro byte _
      apply (decodeBits_mirrors hbyte byte len 8 l.1).bind
      exact fun _ _ => Mirrors.pure trivial
    · trivial
  · exact fun _ _ => Mirrors.pure trivial

theorem hufDecodeBlock_mirrors (hbyte : M.Allows 1) (len : ℕ) :
    Mirrors Stray (DecodesAlike L M) (hufDecodeBlock len) (hufDecodeBlock len)
      fun _ => True := by
  apply Mirrors.read_bind DecodeRun.self_corresponds
  intro d d' hd
  rw [hd.lastNode]
  apply Mirrors.ite
  · intro _
    apply Mirrors.read_bind DecodeRun.huffmanTree_corresponds
    rintro tree _ rfl
    apply (setLastNode_mirrors _).bind
    exact fun _ _ => decodePayload_mirrors hbyte len _
  · exact fun _ => decodePayload_mirrors hbyte len _

/-- One iteration. -/
theorem decodeNextBlock_mirrors (hbyte : M.Allows 1) (treeLength : Int16) :
    Mirrors Stray (DecodesAlike L M) (decodeNextBlock treeLength) (decodeNextBlock treeLength)
      fun _ => True := by
  have hread (buf : List UInt8) : Mirrors Stray (DecodesAlike L M)
      (Routine.within DecodeRun.bufioReader (hufBufioRead buf))
      (Routine.within DecodeRun.bufioReader (hufBufioRead buf)) fun _ => True :=
    (hufBufioRead_mirrors buf).within DecodeRun.bufioReader_corresponds
  apply Mirrors.read_bind DecodeRun.config_corresponds
  intro c c' hc
  dsimp only
  rw [hc.blocksize]
  apply (hread _).bind
  intro buf _
  apply Mirrors.bind
  · apply Mirrors.within DecodeRun.config_corresponds
    exact Mirrors.modify fun _ _ hc => { hc with blocksize := rfl }
  intro _ _
  apply (hread _).bind
  intro buf _
  apply Mirrors.ite
  · exact fun _ => Mirrors.fail _
  intro _
  apply ((Mirrors.refl _).within SelfRun.allocator_corresponds).bind
  intro _ _
  apply (hread _).bind
  intro treeHead _
  apply ((Mirrors.refl _).within DecodeRun.huffmanTree_corresponds).bind
  intro _ _
  apply Mirrors.read_bind DecodeRun.config_corresponds
  intro c c' hc
  rw [hc.blocksize]
  apply (hufDecodeBlock_mirrors hbyte _).bind
  intro _ _
  apply ((Mirrors.refl _).within DecodeRun.huffmanTree_corresponds).bind
  intro _ _
  apply (setLastNode_mirrors none).bind
  exact fun _ _ => Mirrors.pure trivial

/-- All blocks and the final flush. -/
theorem decodeBlocks_mirrors (hbyte : M.Allows 1) :
    Mirrors Stray (DecodesAlike L M) decodeBlocks decodeBlocks fun _ => True := by
  apply Mirrors.read_bind DecodeRun.config_corresponds
  intro c c' hc
  dsimp only
  rw [hc.length]
  apply Mirrors.bind (V := fun _ => True)
  · apply Mirrors.whileLoop
    · intro _ _
      apply Mirrors.read_bind DecodeRun.config_corresponds
      intro d d' hd
      rw [hd.length]
      apply Mirrors.read_bind DecodeRun.bufioReader_corresponds
      intro b b' hb
      rw [hb.bufio.haveBeenProcessed]
      exact Mirrors.pure trivial
    · intro treeLength _
      apply (decodeNextBlock_mirrors hbyte treeLength).bind
      exact fun _ _ => Mirrors.pure trivial
    · trivial
  · intro _ _
    exact hufBufioReadWriterFlush_mirrors.within DecodeRun.bufioWriter_corresponds

/-! ## Creation and release -/

theorem hufDecoderInit_mirrors {config : Option (HufConfig ρ ω)}
    {config' : Option (HufConfig ρ' ω')} (hconfig : Option.Rel (ConfigsAlike L M) config config') :
    Mirrors Stray (DecodesAlike L M) (hufDecoderInit config) (hufDecoderInit config')
      fun _ => True := by
  apply requireParam_mirrors hconfig
  intro c c' hc
  apply ((Mirrors.refl _).within SelfRun.allocator_corresponds).bind
  intro _ _
  apply Mirrors.bind (V := fun _ => True)
  · exact Mirrors.modify fun _ _ h => ⟨.some ⟨.none, rfl, rfl, .none, .none⟩, h.world⟩
  intro _ _
  apply Mirrors.bind
  · apply (hufConfigInit_mirrors hc).within
    apply SelfRun.creating_corresponds
    · exact fun d d' hd => hd.config
    · exact fun d d' o o' hd ho => { hd with config := ho }
  intro _ _
  apply Mirrors.bind
  · apply SelfRun.creating_same
    · exact fun d d' hd => hd.huffmanTree
    · exact fun d d' o hd => { hd with huffmanTree := rfl }
  intro _ _
  apply Mirrors.read_bind DecodeRun.config_corresponds
  intro d d' hd
  rw [hd.writerBufferSize]
  apply Mirrors.bind
  · apply (hufBufioReadWriterInit_mirrors hd.writer hd.writerAllowed).within
    apply SelfRun.creating_corresponds
    · exact fun d d' hd => hd.bufioWriter
    · exact fun d d' o o' hd ho => { hd with bufioWriter := ho }
  intro _ _
  apply Mirrors.read_bind DecodeRun.config_corresponds
  intro d d' hd
  rw [hd.readerBufferSize]
  apply (hufBufioReadWriterInit_mirrors hd.reader hd.readerAllowed).within
  apply SelfRun.creating_corresponds
  · exact fun d d' hd => hd.bufioReader
  · exact fun d d' o o' hd ho => { hd with bufioReader := ho }

theorem hufDecoderFree_mirrors :
    Mirrors Stray (DecodesAlike L M) hufDecoderFree hufDecoderFree fun _ => True := by
  apply Mirrors.bind
  · apply SelfRun.releasingTree_same
    · exact fun d d' hd => hd.huffmanTree
    · exact fun d d' o hd => { hd with huffmanTree := rfl }
  intro _ _
  apply Mirrors.bind
  · apply hufBufioReadWriterFree_mirrors.within
    apply SelfRun.releasing_corresponds
    · exact fun d d' hd => hd.bufioWriter
    · exact fun d d' o o' hd ho => { hd with bufioWriter := ho }
  intro _ _
  apply Mirrors.bind
  · apply hufBufioReadWriterFree_mirrors.within
    apply SelfRun.releasing_corresponds
    · exact fun d d' hd => hd.bufioReader
    · exact fun d d' o o' hd ho => { hd with bufioReader := ho }
  intro _ _
  apply Mirrors.bind
  · apply hufConfigFree_mirrors.within
    apply SelfRun.releasing_corresponds
    · exact fun d d' hd => hd.config
    · exact fun d d' o o' hd ho => { hd with config := ho }
  intro _ _
  exact Mirrors.modify fun _ _ h => ⟨.none, h.world⟩

/-- The decoder does the same on streams that are alike. -/
theorem hufDecode_mirrors (hbyte : M.Allows 1) {config : Option (HufConfig ρ ω)}
    {config' : Option (HufConfig ρ' ω')} (hconfig : Option.Rel (ConfigsAlike L M) config config') :
    Mirrors Stray (WorldsAlike L M) (hufDecode config) (hufDecode config') fun _ => True := by
  have hrun : Mirrors Stray (DecodesAlike L M)
      (Routine.ensuring (do hufDecoderInit config; decodeBlocks) hufDecoderFree)
      (Routine.ensuring (do hufDecoderInit config'; decodeBlocks) hufDecoderFree)
      fun _ => True := by
    apply Mirrors.ensuring
    · exact (hufDecoderInit_mirrors hconfig).bind fun _ _ => decodeBlocks_mirrors hbyte
    · exact hufDecoderFree_mirrors
  apply Mirrors.withLocal (L := Option.Rel (DecodersAlike L M)) .none
  intro s t h
  exact (hrun s t ⟨h.1, h.2⟩).mono (fun _ _ h => ⟨h.self, h.world⟩) fun _ ha => ha

end LibHuffman
