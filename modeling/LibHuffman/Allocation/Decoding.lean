/-
# The life of a decoder under failing allocations

`huf_decoder_init` makes five allocations and those of the buffered writer until the
structure of the buffered reader is there. From then on the decoder can be released
wherever it stops.
-/

import LibHuffman.Allocation.Cleanup
import LibHuffman.Allocation.Decoder

namespace LibHuffman

open Foundation Allocating Routine DecodeRun

variable {ρ ω : Type}

theorem HufDecoder.streamFields :
    StreamFields HufDecoder.bufioReader
      (fun bufio (self : HufDecoder ρ ω) => { self with bufioReader := bufio })
      HufDecoder.bufioWriter
      fun bufio (self : HufDecoder ρ ω) => { self with bufioWriter := bufio } :=
  ⟨fun _ _ => rfl, fun _ _ => rfl⟩

/-- Where an initialization ends. -/
theorem hufDecoderInit_ended (config : HufConfig ρ ω) (world : World ρ ω) :
    Ended (Stopped 5 (NoReader HufDecoder.bufioReader) (OnTree Rooted) config world)
      (fun _ => Started 5 (OnTree fun t => t.tree.root = none) config world
        (hufDecoderInit (some config) (none, schedule [] world)))
      (hufDecoderInit (some config) (none, world)) := by
  have hblocks := one_le_bufioBlocks config.writerBufferSize
  generalize hother : hufDecoderInit (some config) (none, schedule [] world) = other
  rw [hufDecoderInit, requireParam, Routine.pure_bind_apply]
  apply self_ended.bind
  rintro _ _ ⟨hgranted, rfl⟩
  rw [Routine.modify_bind_apply]
  apply Ended.bind (early_ended (hufConfigInit_creates config) rfl (fun _ => rfl) hgranted
    (by omega))
  rintro _ _ ⟨hgranted, rfl⟩
  apply Ended.bind (early_ended hufTreeInit_creates rfl (fun _ => rfl) hgranted (by omega))
  rintro _ _ ⟨hgranted, rfl⟩
  apply (streams_ended HufDecoder.streamFields config.blocksize rfl (fun _ _ => rfl) _ rfl rfl
    hgranted _).mono (fun _ _ h => h)
  · rintro _ _ ⟨hready, reader, writer, j, hreader, hwriter, hgranted, rfl⟩
    refine ⟨hready, ⟨_, hgranted, rfl⟩, ?_, newDecoder config reader writer (world.drop _), rfl,
      rfl⟩
    rw [← hother, hufDecoderInit_eq hreader hwriter rfl]
    rfl
  · rintro _ ⟨_ | ⟨_ | _, tree, lastNode, writer, reader⟩, world'⟩ ⟨⟩
    rfl
  · intro reader writer bufio j _ _
    exact onTree_rooted ⟨{ newDecoder config reader writer (world.drop j) with
      reader := ⟨bufio, world.input⟩ }, rfl, rfl⟩

/-- The release of a decoder without a reader does not end. -/
theorem hufDecoderFree_fault {s : DecodeRun ρ ω} (h : NoReader HufDecoder.bufioReader s) :
    ∃ fault, hufDecoderFree s = .error fault := by
  rw [hufDecoderFree]
  exact freeStreams_fault HufDecoder.streamFields (by intros; rfl) h

/-- A decoder with all its pointers is released wherever a run leaves it. -/
theorem hufDecoderFree_cleans :
    Cleans (OnTree Rooted) (fun _ => True) (hufDecoderFree (ρ := ρ) (ω := ω)) := by
  rintro _ ⟨d, rfl, shape, hshape⟩
  rcases hufTreeFree_cleans hshape with ⟨heap, hrun, hrun', hallocations⟩
  exact ⟨_, _, hufDecoderFree_of_tree hrun,
    hufDecoderFree_of_tree (d := { d with tree := schedule [] d.tree }) hrun', hallocations,
    trivial⟩

/-- The run of `huf_decode` before the release of its decoder. -/
def decodeBody (config : Option (HufConfig ρ ω)) : CRoutine (DecodeRun ρ ω) Unit := do
  hufDecoderInit config
  decodeBlocks

/-- `huf_decode` fails safely once the allocations for its reader are made. -/
theorem decode_failsSafely_iff (config : Option (HufConfig ρ ω)) (world : World ρ ω) :
    FailsSafely (decodeBody config) hufDecoderFree config world ↔ Ready 5 config world :=
  failsSafely_iff config world ⟨_, rfl⟩ (fun _ _ h => nomatch h)
    (fun c _ world => hufDecoderInit_ended c world) decodeBlocks_endures
    (fun _ => hufDecoderFree_fault) hufDecoderFree_cleans

end LibHuffman
