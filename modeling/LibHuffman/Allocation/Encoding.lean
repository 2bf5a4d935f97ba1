/-
# The life of an encoder under failing allocations

`huf_encoder_init` makes nine allocations and those of the buffered writer until the
structure of the buffered reader is there. From then on the encoder can be released
wherever it stops.
-/

import LibHuffman.Allocation.Cleanup
import LibHuffman.Allocation.Encoder

namespace LibHuffman

open Foundation Allocating Routine EncodeRun

variable {ρ ω : Type}

/-- An encoder that has not begun to encode. -/
def EncodeCore.New (c : EncodeCore ρ ω) : Prop :=
  ∃ config : HufConfig ρ ω, config.length < 2 ^ 64 ∧
    (config.blocksize = 0 → config.length = 0) ∧ Fresh config emptyHistogram c

/-- Only a configuration without bytes has a blocksize of zero. -/
theorem wholeBlock_blocksize (config : HufConfig ρ ω) (h : (wholeBlock config).blocksize = 0) :
    (wholeBlock config).length = 0 := by
  have hblocksize : (if config.blocksize = 0 then config.length else config.blocksize) = 0 := h
  split at hblocksize
  · exact hblocksize
  · contradiction

theorem HufEncoder.streamFields :
    StreamFields HufEncoder.bufioReader
      (fun bufio (self : HufEncoder ρ ω) => { self with bufioReader := bufio })
      HufEncoder.bufioWriter
      fun bufio (self : HufEncoder ρ ω) => { self with bufioWriter := bufio } :=
  ⟨fun _ _ => rfl, fun _ _ => rfl⟩

/-- Where an initialization ends. -/
theorem hufEncoderInit_ended (config : HufConfig ρ ω) (hlength : config.length < 2 ^ 64)
    (world : World ρ ω) :
    Ended (Stopped 9 (NoReader HufEncoder.bufioReader) (OnCore EncodeCore.Disposable) config world)
      (fun _ => Started 9 (OnCore EncodeCore.New) config world
        (hufEncoderInit (some config) (none, schedule [] world)))
      (hufEncoderInit (some config) (none, world)) := by
  have hblocks := one_le_bufioBlocks config.writerBufferSize
  generalize hother : hufEncoderInit (some config) (none, schedule [] world) = other
  rw [hufEncoderInit, requireParam, Routine.pure_bind_apply]
  apply self_ended.bind
  rintro _ _ ⟨hgranted, rfl⟩
  rw [Routine.modify_bind_apply]
  apply Ended.bind (early_ended (hufConfigInit_creates (wholeBlock config)) rfl (fun _ => rfl)
    hgranted (by omega))
  rintro _ _ ⟨hgranted, rfl⟩
  apply Ended.bind (early_ended hufTreeInit_creates rfl (fun _ => rfl) hgranted (by omega))
  rintro _ _ ⟨hgranted, rfl⟩
  apply Ended.bind (early_ended (hufSymbolMappingInit_creates _) rfl (fun _ => rfl) hgranted
    (by omega))
  rintro _ _ ⟨hgranted, rfl⟩
  apply Ended.bind (early_ended hufHistogramInit_creates rfl (fun _ => rfl) hgranted (by omega))
  rintro _ _ ⟨hgranted, rfl⟩
  apply (streams_ended HufEncoder.streamFields (wholeBlock config).blocksize rfl (fun _ _ => rfl)
    _ rfl rfl hgranted _).mono (fun _ _ h => h)
  · rintro _ _ ⟨hready, reader, writer, j, hreader, hwriter, hgranted, rfl⟩
    refine ⟨hready, ⟨_, hgranted, rfl⟩, ?_, newEncoder config reader writer (world.drop _), rfl,
      wholeBlock config, hlength, wholeBlock_blocksize config, rfl, rfl, rfl,
      List.length_replicate ..⟩
    rw [← hother, hufEncoderInit_eq hreader hwriter rfl]
    rfl
  · rintro _ ⟨_ | ⟨_ | _, bitWriter, tree, mapping, histogram, writer, reader⟩, world'⟩ ⟨⟩
    rfl
  · intro reader writer bufio j _ _
    exact ⟨{ newEncoder config reader writer (world.drop j) with
      reader := ⟨bufio, world.input⟩ }, rfl, ⟨.nil, Heap.holds_none _⟩, List.length_replicate ..⟩

/-- The release of an encoder without a reader does not end. -/
theorem hufEncoderFree_fault {s : EncodeRun ρ ω} (h : NoReader HufEncoder.bufioReader s) :
    ∃ fault, hufEncoderFree s = .error fault := by
  rw [hufEncoderFree]
  exact freeStreams_fault HufEncoder.streamFields (by intros; rfl) h

/-- An encoder with all its pointers is released wherever a run leaves it. -/
theorem hufEncoderFree_cleans :
    Cleans (OnCore EncodeCore.Disposable) (fun _ => True) (hufEncoderFree (ρ := ρ) (ω := ω)) := by
  rintro _ ⟨e, rfl, ⟨shape, hshape⟩, hmapping⟩
  rcases hufTreeFree_cleans hshape with ⟨heap, hrun, hrun', hallocations⟩
  exact ⟨_, _, hufEncoderFree_of_tree hrun hmapping,
    hufEncoderFree_of_tree (e := { e with tree := schedule [] e.tree }) hrun' hmapping,
    hallocations, trivial⟩

/-- The run of `huf_encode` before the release of its encoder. -/
def encodeBody (config : Option (HufConfig ρ ω)) : CRoutine (EncodeRun ρ ω) Unit := do
  hufEncoderInit config
  encodeBlocks

/-- `huf_encode` fails safely once the allocations for its reader are made. -/
theorem encode_failsSafely_iff (config : Option (HufConfig ρ ω)) (world : World ρ ω)
    (hlength : ∀ c, config = some c → c.length < 2 ^ 64) :
    FailsSafely (encodeBody config) hufEncoderFree config world ↔ Ready 9 config world := by
  apply failsSafely_iff config world ⟨_, rfl⟩ (fun _ _ h => nomatch h)
    (fun c hc world => hufEncoderInit_ended c (hlength c hc) world) _
    (fun _ => hufEncoderFree_fault) hufEncoderFree_cleans
  rintro first _ hspared ⟨e, rfl, config, hlength, hblocksize, hfresh⟩
  exact encodeBlocks_endures hlength hblocksize first _ hspared ⟨e, rfl, hfresh⟩

end LibHuffman
