/-
# Encoding a payload

The bits of a block go through the bit writer, which hands every full byte to the
buffered writer. What has been written at any moment is the packing of the bits up
to the last byte boundary; the others, fewer than eight, are in the bit writer.
-/

import LibHuffman.Encode.Coding
import LibHuffman.Foundation.BitString

namespace LibHuffman

open Foundation

variable {ρ ω : Type}

/-- The bits `bits` have been written after `before`, whole bytes to the buffered
writer and the rest to the bit writer. -/
def BitsWritten (sink : Sink ω) (before : List UInt8) (bits : List Bool)
    (bitWriter : HufBitReadWriter) (writer : Buffered ω) : Prop :=
  ∃ flushed pending, bits = flushed ++ pending ∧ 8 ∣ flushed.length ∧ pending.length < 8 ∧
    bitWriter = ⟨packByte pending, 8 - pending.length⟩ ∧
    Writing sink.toFallibleSink writer (before ++ pack flushed)

/-- A mapping holds the codes of the bytes of a block. -/
def Maps (rates : List ℕ) (block : List UInt8) (m : HufSymbolMapping) : Prop :=
  m.length = hufAsciiCount ∧
    ∀ byte ∈ block, m.symbols[byte.toNat]? = some (some (codeElement rates byte.toNat))

/-- The bit that a character of a coding stands for. -/
def charBit (char : UInt8) : Bool := char &&& 1 ≠ 0

/-- The bits of an element, from the last stored character to the first. -/
def HufSymbolMappingElement.bits (element : HufSymbolMappingElement) : List Bool :=
  (element.coding.take element.length).reverse.map charBit

/-- A mapping has an entry for every byte of a block, with as many characters as its length
says. -/
def Enters (entry : UInt8 → HufSymbolMappingElement) (block : List UInt8)
    (m : HufSymbolMapping) : Prop :=
  ∀ byte ∈ block, hufSymbolMappingGet byte.toNat m = .ok (.ok (some (entry byte)), m) ∧
    (entry byte).length ≤ (entry byte).coding.length

/-- The bits that a block has with its entries. -/
def entryBits (entry : UInt8 → HufSymbolMappingElement) (block : List UInt8) : List Bool :=
  block.flatMap fun byte => (entry byte).bits

/-- The bits of a payload. -/
def payloadBits (rates : List ℕ) (block : List UInt8) : List Bool :=
  block.flatMap fun byte => hufCode rates byte.toNat

theorem and_one_eq (char : UInt8) : char &&& 1 = if charBit char then 1 else 0 := by
  have hlow : (char &&& 1).toNat = char.toNat % 2 := by
    rw [UInt8.toNat_and]
    exact Nat.and_one_is_mod _
  by_cases hzero : char &&& 1 = 0
  · simp [charBit, hzero]
  · have hone : char &&& 1 = 1 := by
      rw [← UInt8.toNat_inj, UInt8.toNat_zero] at hzero
      apply UInt8.toNat_inj.mp
      rw [UInt8.toNat_one]
      omega
    simp [charBit, hone]

theorem charBit_bitChar (bit : Bool) : charBit (bitChar bit) = bit := by
  cases bit <;> rfl

theorem codeElement_bits (rates : List ℕ) (byte : ℕ) :
    (codeElement rates byte).bits = hufCode rates byte := by
  have hlength : ((hufCode rates byte).reverse.map bitChar).length =
      (hufCode rates byte).length := by
    rw [List.length_map, List.length_reverse]
  have htake : (codeElement rates byte).coding.take (codeElement rates byte).length =
      (hufCode rates byte).reverse.map bitChar := List.take_left' hlength
  rw [HufSymbolMappingElement.bits, htake, ← List.map_reverse, List.reverse_reverse, List.map_map]
  exact List.map_id'' charBit_bitChar _

/-- The codes of the bytes of a block are entries for them. -/
theorem Maps.enters {rates : List ℕ} {block : List UInt8} {m : HufSymbolMapping}
    (h : Maps rates block m) : Enters (fun byte => codeElement rates byte.toNat) block m := by
  intro byte hbyte
  refine ⟨hufSymbolMappingGet_eq (h.1 ▸ byte.toNat_lt) (h.2 byte hbyte), ?_⟩
  simp [codeElement]

/-- Writing a bit puts it behind those that are pending. -/
theorem hufBitWrite_packByte {pending : List Bool} (hlt : pending.length < 8) (char : UInt8) :
    hufBitWrite ⟨packByte pending, 8 - pending.length⟩ char =
      ⟨packByte (pending ++ [charBit char]), 8 - (pending ++ [charBit char]).length⟩ := by
  have hoffset : 8 - pending.length - (if 8 - pending.length ≠ 0 then 1 else 0) =
      8 - pending.length - 1 := by
    rw [if_pos (by omega)]
  rw [hufBitWrite, hoffset, and_one_eq, packByte, packByte, placeBits_append,
    List.length_append, List.length_singleton, Nat.sub_add_eq]
  rfl

section

variable {sink : Sink ω} {e : EncodeState ρ ω} {before : List UInt8} {bits : List Bool}

/-- The bits in the bit writer. -/
theorem BitsWritten.reset {writer : Buffered ω} (h : Writing sink.toFallibleSink writer before) :
    BitsWritten sink before [] hufBitReadWriterReset writer :=
  ⟨[], [], rfl, ⟨0, rfl⟩, by decide, rfl, by rwa [pack_nil, List.append_nil]⟩

/-- The innermost statements of `__huf_encode_block` write one bit. -/
theorem writeBit_eq (h : BitsWritten sink before bits e.bitWriter e.writer) (char : UInt8) :
    ∃ bitWriter writer,
      writeBit char e.run = .ok (.ok (), { e with bitWriter, writer }.run) ∧
      BitsWritten sink before (bits ++ [charBit char]) bitWriter writer := by
  rcases h with ⟨flushed, pending, rfl, hflushed, hpending, hbitWriter, hwriting⟩
  have hlen : (pending ++ [charBit char]).length = pending.length + 1 := by
    simp
  let written : HufBitReadWriter :=
    ⟨packByte (pending ++ [charBit char]), 8 - (pending ++ [charBit char]).length⟩
  have hwrite : Routine.within EncodeRun.bitWriter
      (Routine.modify fun self => hufBitWrite self char) e.run =
      (.ok (.ok (), { e with bitWriter := written }.run) :
        Outcome Fault HufError (EncodeRun ρ ω) Unit) := by
    apply EncodeState.within_bitWriter
    rw [Routine.modify_apply, hbitWriter, hufBitWrite_packByte hpending]
  have hget : Routine.within EncodeRun.bitWriter Routine.get { e with bitWriter := written }.run =
      (.ok (.ok written, { e with bitWriter := written }.run) :
        Outcome Fault HufError (EncodeRun ρ ω) HufBitReadWriter) :=
    EncodeState.within_bitWriter rfl
  rw [writeBit, Routine.bind_of_ok hwrite, Routine.bind_of_ok hget]
  by_cases hfull : pending.length = 7
  · -- the byte is full: it is written and the bit writer is reset
    obtain ⟨writer, hbyte, hwriting'⟩ :=
      hufBufioWriteUint8_ok hwriting (packByte (pending ++ [charBit char]))
    refine ⟨hufBitReadWriterReset, writer, ?_, flushed ++ (pending ++ [charBit char]), [],
      by simp, ?_, by decide, rfl, ?_⟩
    · have hoffset : written.offset = 0 := by
        show 8 - (pending ++ [charBit char]).length = 0
        omega
      rw [if_pos hoffset, Routine.bind_of_ok
        (EncodeState.within_writer (e := { e with bitWriter := written }) hbyte)]
      exact EncodeState.within_bitWriter
        (e := { e with bitWriter := written, writer := writer }) rfl
    · simp only [List.length_append, hlen]
      omega
    · have hne : pending ++ [charBit char] ≠ [] :=
        List.append_ne_nil_of_right_ne_nil pending (List.cons_ne_nil _ [])
      rw [pack_append hflushed, pack_of_le hne (by omega), ← List.append_assoc]
      exact hwriting'
  · refine ⟨written, e.writer, ?_, flushed, pending ++ [charBit char],
      by rw [List.append_assoc], hflushed, by omega, rfl, hwriting⟩
    rw [if_neg]
    · rfl
    · show ¬ 8 - (pending ++ [charBit char]).length = 0
      omega

/-- The loop over a coding writes its characters from the last to the first. -/
theorem writeCoding_eq {element : HufSymbolMappingElement} {count : ℕ}
    (hcount : count ≤ element.coding.length)
    (h : BitsWritten sink before bits e.bitWriter e.writer) :
    ∃ bitWriter writer,
      writeCoding element count e.run = .ok (.ok (), { e with bitWriter, writer }.run) ∧
      BitsWritten sink before (bits ++ (element.coding.take count).reverse.map charBit)
        bitWriter writer := by
  induction count generalizing e bits with
  | zero =>
      refine ⟨e.bitWriter, e.writer, rfl, ?_⟩
      rwa [List.take_zero, List.reverse_nil, List.map_nil, List.append_nil]
  | succ count ih =>
      have hget := List.getElem?_eq_getElem (show count < element.coding.length by omega)
      obtain ⟨bitWriter, writer, hbit, hwritten⟩ := writeBit_eq h element.coding[count]
      obtain ⟨bitWriter', writer', hrest, hwritten'⟩ :=
        ih (e := { e with bitWriter, writer }) (by omega) hwritten
      refine ⟨bitWriter', writer', ?_, ?_⟩
      · rw [writeCoding, load_of_getElem? hget, Routine.demand_ok_bind_apply,
          Routine.bind_of_ok hbit]
        exact hrest
      · rw [List.take_add_one, hget, Option.toList_some, List.reverse_append,
          List.reverse_singleton, List.map_append, ← List.append_assoc]
        exact hwritten'

/-- The encoding of one byte writes the bits of its entry. -/
theorem encodeByte_eq {entry : UInt8 → HufSymbolMappingElement} {block : List UInt8}
    (hentries : Enters entry block e.mapping) {byte : UInt8} (hbyte : byte ∈ block)
    (h : BitsWritten sink before bits e.bitWriter e.writer) :
    ∃ bitWriter writer,
      encodeByte byte e.run = .ok (.ok (), { e with bitWriter, writer }.run) ∧
      BitsWritten sink before (bits ++ (entry byte).bits) bitWriter writer := by
  rcases hentries byte hbyte with ⟨hget, hcoding⟩
  obtain ⟨bitWriter, writer, hrun, hwritten⟩ := writeCoding_eq hcoding h
  refine ⟨bitWriter, writer, ?_, hwritten⟩
  rw [encodeByte, Routine.bind_of_ok (EncodeState.within_mapping hget), deref_some,
    Routine.demand_ok_bind_apply]
  exact hrun

/-- `__huf_encode_block` writes the bits of the entries as whole bytes. -/
theorem hufEncodeBlock_entries {entry : UInt8 → HufSymbolMappingElement} {block : List UInt8}
    (hentries : Enters entry block e.mapping) (hreset : e.bitWriter = hufBitReadWriterReset)
    (hwriting : Writing sink.toFallibleSink e.writer before) :
    ∃ bitWriter writer,
      hufEncodeBlock block e.run = .ok (.ok (), { e with bitWriter, writer }.run) ∧
      Writing sink.toFallibleSink writer (before ++ pack (entryBits entry block)) := by
  obtain ⟨s, hrun, bitWriter, writer, rfl, flushed, pending, hbits, hflushed, hpending,
      hbitWriter, hwriting'⟩ :=
    Routine.forM_rule block (fun done s => ∃ bitWriter writer,
        s = { e with bitWriter, writer }.run ∧
          BitsWritten sink before (entryBits entry done) bitWriter writer)
      (f := (encodeByte : UInt8 → CRoutine (EncodeRun ρ ω) Unit)) (s := e.run)
      (by
        rintro done byte rest s hblock ⟨bitWriter, writer, rfl, hwritten⟩
        have hbyte : byte ∈ block := by
          rw [hblock]
          simp
        obtain ⟨bitWriter', writer', hrun, hwritten'⟩ :=
          encodeByte_eq (e := { e with bitWriter, writer }) hentries hbyte hwritten
        refine ⟨_, hrun, bitWriter', writer', rfl, ?_⟩
        rw [entryBits, List.flatMap_append, List.flatMap_singleton]
        exact hwritten')
      ⟨e.bitWriter, e.writer, rfl, hreset ▸ BitsWritten.reset hwriting⟩
  have hget : Routine.within EncodeRun.bitWriter Routine.get { e with bitWriter, writer }.run =
      (.ok (.ok bitWriter, { e with bitWriter, writer }.run) :
        Outcome Fault HufError (EncodeRun ρ ω) HufBitReadWriter) :=
    EncodeState.within_bitWriter rfl
  rw [hufEncodeBlock, Routine.bind_of_ok hrun, Routine.bind_of_ok hget, hbits, pack_append hflushed]
  have hoffset : bitWriter.offset = 8 - pending.length := by rw [hbitWriter]
  by_cases hnil : pending = []
  · subst hnil
    refine ⟨bitWriter, writer, ?_, by rwa [pack_nil, List.append_nil]⟩
    rw [if_neg (by rw [hoffset]; simp)]
    rfl
  · have hpos := List.length_pos_iff.mpr hnil
    obtain ⟨writer', hbyte, hwriting''⟩ := hufBufioWriteUint8_ok hwriting' bitWriter.bits
    refine ⟨bitWriter, writer', ?_, ?_⟩
    · rw [if_pos (by omega)]
      exact EncodeState.within_writer (e := { e with bitWriter, writer }) hbyte
    · rw [pack_of_le hnil (by omega), ← List.append_assoc]
      rwa [hbitWriter] at hwriting''

/-- `__huf_encode_block` writes the codes of the bytes as whole bytes. -/
theorem hufEncodeBlock_eq {rates : List ℕ} {block : List UInt8}
    (hmaps : Maps rates block e.mapping) (hreset : e.bitWriter = hufBitReadWriterReset)
    (hwriting : Writing sink.toFallibleSink e.writer before) :
    ∃ bitWriter writer,
      hufEncodeBlock block e.run = .ok (.ok (), { e with bitWriter, writer }.run) ∧
      Writing sink.toFallibleSink writer (before ++ pack (payloadBits rates block)) := by
  have hbits : entryBits (fun byte => codeElement rates byte.toNat) block =
      payloadBits rates block := by
    simp only [entryBits, payloadBits, codeElement_bits]
  rw [← hbits]
  exact hufEncodeBlock_entries hmaps.enters hreset hwriting

/-- Whatever the entries of a mapping are, the bytes of a payload are as many as its bits need
and hold the bits in order, with zeros behind them in the last byte only. -/
theorem hufEncodeBlock_packs {entry : UInt8 → HufSymbolMappingElement} {block : List UInt8}
    (hentries : Enters entry block e.mapping) (hreset : e.bitWriter = hufBitReadWriterReset)
    (hwriting : Writing sink.toFallibleSink e.writer before) :
    ∃ bitWriter writer payload,
      hufEncodeBlock block e.run = .ok (.ok (), { e with bitWriter, writer }.run) ∧
      Writing sink.toFallibleSink writer (before ++ payload) ∧
      payload.length = ((entryBits entry block).length + 7) / 8 ∧
      bytesBits payload = entryBits entry block ++
        List.replicate (8 * payload.length - (entryBits entry block).length) false := by
  obtain ⟨bitWriter, writer, hrun, hwriting'⟩ := hufEncodeBlock_entries hentries hreset hwriting
  rcases bytesBits_pack (entryBits entry block) with ⟨padding, hpadding, hbits⟩
  have hlength : 8 * (pack (entryBits entry block)).length =
      (entryBits entry block).length + padding := by
    rw [← length_bytesBits, hbits, List.length_append, List.length_replicate]
  refine ⟨bitWriter, writer, _, hrun, hwriting', by omega, ?_⟩
  rw [hbits, hlength, Nat.add_sub_cancel_left]

end

/-- Three bytes with codes of three bits each take two bytes. -/
theorem hufEncodeBlock_packs_nine :
    let e : EncodeState Fifo Fifo :=
      { config := ⟨3, 3, 0, 2, none, none⟩
        bitWriter := hufBitReadWriterReset
        tree := ⟨⟨noLeaves, none⟩, ⟨fun _ => none, 0, []⟩⟩
        mapping := ⟨1, [some ⟨3, [48, 49, 49, 0]⟩]⟩
        histogram := ⟨[], 1, 0, 0⟩
        writer := ⟨newBufio Fifo.readWriter 2, Fifo.empty⟩
        reader := ⟨newBufio Fifo.readWriter 0, Fifo.empty⟩ }
    ∃ bitWriter writer payload,
      hufEncodeBlock [0, 0, 0] e.run = .ok (.ok (), { e with bitWriter, writer }.run) ∧
      Writing Fifo.sink.toFallibleSink writer payload ∧ payload.length = 2 ∧
      bytesBits payload = [true, true, false, true, true, false, true, true, false] ++
        List.replicate 7 false := by
  intro e
  have hentries : Enters (fun _ => ⟨3, [48, 49, 49, 0]⟩) [0, 0, 0] e.mapping := by
    intro byte hbyte
    obtain rfl : byte = 0 := by simpa using hbyte
    exact ⟨rfl, by decide⟩
  obtain ⟨bitWriter, writer, payload, hrun, hwriting, hlength, hbits⟩ :=
    hufEncodeBlock_packs hentries rfl (writing_newBufio Fifo.sink.toFallibleSink 2 Fifo.empty)
  refine ⟨bitWriter, writer, payload, hrun, hwriting, hlength, ?_⟩
  rw [hbits, hlength]
  rfl

end LibHuffman
