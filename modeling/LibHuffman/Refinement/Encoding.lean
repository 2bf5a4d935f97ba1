/-
# Encoding onto a stream that may fail

Whatever allocations fail and whatever writes are refused or done in part, `huf_encode`
returns, and what it has written is the beginning of the encoded input; all of it, if it
returns without a code.
-/

import LibHuffman.Allocation.Encoding
import LibHuffman.Codec.RoundTrip
import LibHuffman.Encode.CodeTable
import LibHuffman.Refinement.Encoder

namespace LibHuffman

open Foundation Allocating

variable {ρ ω : Type}

theorem hufEncoderFree_keepsOutput : KeepsOutput (hufEncoderFree (ρ := ρ) (ω := ω)) := by
  apply Preserves.bind (Preserves.within (fun _ _ => rfl) _)
  intro _
  apply Preserves.bind (Preserves.within (fun _ _ => rfl) _)
  intro _
  apply Preserves.bind (Preserves.within (fun _ _ => rfl) _)
  intro _
  apply Preserves.bind (Preserves.within (fun _ _ => rfl) _)
  intro _
  apply Preserves.bind (Preserves.within (fun _ _ => rfl) _)
  intro _
  apply Preserves.bind (Preserves.within (fun _ _ => rfl) _)
  intro _
  exact Preserves.modify fun _ => rfl

theorem hufEncoderInit_keepsOutput (config : HufConfig ρ ω) :
    KeepsOutput (hufEncoderInit (some config)) := by
  apply Preserves.bind (Preserves.pure _)
  intro _
  apply Preserves.bind (Preserves.within (fun _ _ => rfl) _)
  intro _
  apply Preserves.bind
  · exact Preserves.modify fun _ => rfl
  intro _
  apply Preserves.bind (Preserves.within (fun _ _ => rfl) _)
  intro _
  apply Preserves.bind (Preserves.within (fun _ _ => rfl) _)
  intro _
  apply Preserves.bind (Preserves.within (fun _ _ => rfl) _)
  intro _
  apply Preserves.bind (Preserves.within (fun _ _ => rfl) _)
  intro _
  apply Preserves.bind (Preserves.within (fun _ _ => rfl) _)
  intro _
  apply Preserves.bind (Preserves.within (fun _ _ => rfl) _)
  intro _
  apply Preserves.bind (Preserves.within (fun _ _ => rfl) _)
  intro _
  exact Preserves.within (fun _ _ => rfl) _

/-- The last thing a successful run does is to flush its writer. -/
theorem encodeBody_empties (config : Option (HufConfig ρ ω)) :
    Triple (fun _ => True) (encodeBody config)
      (fun _ s => ∀ e : EncodeState ρ ω, s = e.run → e.writer.bufio.length = 0)
      fun _ _ => True := by
  apply Triple.unconditional.bind
  intro _
  apply Triple.unconditional.bind
  intro _
  apply Triple.unconditional.bind
  intro _
  apply Triple.unconditional.bind
  intro _
  apply Triple.within
  intro s _
  apply hufBufioReadWriterFlush_empties.mono (fun _ _ => trivial) _ fun _ _ h => h
  rintro _ b hempty e hrun
  rcases s with ⟨_ | self, world⟩
  · cases hrun
  · have hwriter : some (some b.bufio) = some (some e.writer.bufio) :=
      congrArg (fun s => s.1.map HufEncoder.bufioWriter) hrun
    rw [← Option.some.inj (Option.some.inj hwriter)]
    exact hempty

section

variable {src : Source ρ} {sink : PartialSink ω} {config : HufConfig ρ ω} {world : World ρ ω}

/-- A new encoder is at the same place as the ideal one. -/
theorem encodeTwins_new (hvalid : src.valid world.input) (houtput : sink.valid world.output)
    (hbuffer : config.writerBufferSize ≤ sink.limit) {e : EncodeState ρ ω}
    (hspared : Spared world.heap.allocations (allocations e.tree))
    (hsame : schedule [] e.run =
      (newEncoder config src.readWriter sink.readWriter (schedule [] world)).run) :
    EncodeTwins src sink (sink.content world.output) world.heap.allocations e
      (newEncoder (idealConfig config) Fifo.readWriter Fifo.readWriter
        (idealWorld src sink world)) := by
  have hstate : { e with tree := schedule [] e.tree } =
      newEncoder config src.readWriter sink.readWriter (schedule [] world) :=
    EncodeState.run_injective hsame
  have htree := congrArg EncodeState.tree hstate
  have hreader := congrArg EncodeState.reader hstate
  have hwriter := congrArg EncodeState.writer hstate
  have hconfig := congrArg EncodeState.config hstate
  dsimp only at htree hreader hwriter hconfig
  constructor
  case blocksize =>
    rw [hconfig]
    rfl
  case length =>
    rw [hconfig]
    rfl
  case bitWriter => exact (congrArg EncodeState.bitWriter hstate).symm
  case mapping => exact (congrArg EncodeState.mapping hstate).symm
  case histogram => exact (congrArg EncodeState.histogram hstate).symm
  case tree => exact htree.symm
  case spared => exact hspared
  case reading =>
    refine ⟨src.remaining world.input, ?_, ?_⟩
    · rw [hreader]
      exact reading_newBufio src _ hvalid
    · exact reading_newBufio Fifo.source 0 trivial
  case writing =>
    refine ⟨sink.content world.output, ?_, ?_⟩
    · rw [hwriter]
      exact appending_newBufio sink houtput hbuffer
    · exact unbuffered_newBufio _

/-- The body of a call and the body of the ideal call. -/
theorem encodeBody_ends (hreader : config.reader = some src.readWriter)
    (hwriter : config.writer = some sink.readWriter) (hready : Ready 9 (some config) world)
    (hlen : config.length < 2 ^ 64) (hvalid : src.valid world.input)
    (houtput : sink.valid world.output) (hlimit : 2 * hufBtreeLen ≤ sink.limit)
    (hbuffer : config.writerBufferSize ≤ sink.limit) :
    ObjectStates.BodyTied (EncodeState.states ρ ω) (EncodeState.states Fifo Fifo) sink world
      (EncodeTwins src sink (sink.content world.output) world.heap.allocations)
      (encodeBody (some config))
      (encodeBody (some (idealConfig config)) (none, idealWorld src sink world)) := by
  have hideal : hufEncoderInit (some (idealConfig config)) (none, idealWorld src sink world) =
      .ok (.ok (), (newEncoder (idealConfig config) Fifo.readWriter Fifo.readWriter
        (idealWorld src sink world)).run) := hufEncoderInit_eq rfl rfl rfl
  rw [encodeBody, encodeBody, Routine.bind_of_ok hideal]
  apply ObjectStates.bodyTied_of_init hready (hufEncoderInit_ended config hlen world)
    (hufEncoderInit_keepsOutput config) _ (encodeTie_encodeBlocks hlimit)
  rintro _ hspared ⟨e, rfl, -⟩ hsame
  rw [hufEncoderInit_eq hreader hwriter rfl] at hsame
  exact ⟨e, _, rfl, rfl, encodeTwins_new hvalid houtput hbuffer hspared
    (congrArg Prod.snd (Except.ok.inj hsame)).symm⟩

/-- The body of the ideal call writes the encoded input. -/
theorem encodeBody_ideal (hlength : config.length = (src.remaining world.input).length)
    (hlen : config.length < 2 ^ 63)
    (hsmall : SmallTrees config.blocksize (src.remaining world.input)) :
    ∃ t, encodeBody (some (idealConfig config)) (none, idealWorld src sink world) =
        .ok (.ok (), t) ∧
      t.2.output.stored = sink.content world.output ++
        encoded config.blocksize (src.remaining world.input) := by
  rcases hufEncode_eq Fifo.source Fifo.sink (idealConfig config) (idealWorld src sink world) rfl
      rfl rfl trivial hlength (show config.length < 2 ^ 64 by omega) with
    ⟨-, world', hrun, hcontent, -⟩ | ⟨hnot, -⟩
  · rcases body_of_call hufEncoderFree_keepsOutput hrun with ⟨t, hbody, houtput⟩
    refine ⟨t, hbody, ?_⟩
    rw [← houtput]
    exact hcontent
  · exact absurd (hsmall.fits (hlength ▸ hlen)) hnot

/-- `huf_encode` returns under every schedule of allocations and for every stream that
fails after parts of writes. It leaves the beginning of the encoded input, all of it where
it succeeds, and the code it leaves with is that of an allocation or of a write. -/
theorem hufEncode_partial (src : Source ρ) (sink : PartialSink ω) (config : HufConfig ρ ω)
    (world : World ρ ω) (hreader : config.reader = some src.readWriter)
    (hwriter : config.writer = some sink.readWriter) (hready : Ready 9 (some config) world)
    (hvalid : src.valid world.input) (houtput : sink.valid world.output)
    (hlength : config.length = (src.remaining world.input).length)
    (hlen : config.length < 2 ^ 63)
    (hsmall : SmallTrees config.blocksize (src.remaining world.input))
    (hlimit : 2 * hufBtreeLen ≤ sink.limit) (hbuffer : config.writerBufferSize ≤ sink.limit) :
    ∃ r world' written, hufEncode (some config) world = .ok (r, world') ∧
      sink.content world'.output = sink.content world.output ++ written ∧
      written <+: encoded config.blocksize (src.remaining world.input) ∧
      (r = .ok () → written = encoded config.blocksize (src.remaining world.input) ∧
        sink.valid world'.output) ∧
      ∀ code, r = .error code → Interrupted sink world.heap.allocations code := by
  have hlt : config.length < 2 ^ 64 := by omega
  rcases @encodeBody_ideal _ _ _ sink _ _ hlength hlen hsmall with ⟨t, hideal, hstored⟩
  have hbody := encodeBody_ends hreader hwriter hready hlt hvalid houtput hlimit hbuffer
  rw [hideal] at hbody
  exact hbody.complete EncodeState.states_lawful EncodeState.states_lawful
    (encodeTwins_twinned src sink _ _)
    ((encode_failsSafely_iff (some config) world fun c hc => by cases hc; exact hlt).mpr hready)
    hufEncoderFree_keepsOutput
    (fun e hrun => (encodeBody_empties _ _ trivial).1 _ _ hrun e rfl) hstored

end

end LibHuffman
