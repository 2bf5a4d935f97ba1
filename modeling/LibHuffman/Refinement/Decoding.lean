/-
# Decoding onto a stream that may fail

Whatever the input is, whatever allocations fail and whatever writes are refused or done
in part, `huf_decode` ends as reading its input ends, unless it has stopped before. What
it has written is the beginning of what it writes to a stream that does not fail.
-/

import LibHuffman.Allocation.Decoding
import LibHuffman.Decode.Acceptance
import LibHuffman.Refinement.Decoder

namespace LibHuffman

open Foundation Allocating

variable {ρ ω : Type}

theorem hufDecoderFree_keepsOutput : KeepsOutput (hufDecoderFree (ρ := ρ) (ω := ω)) := by
  apply Preserves.bind (Preserves.within (fun _ _ => rfl) _)
  intro _
  apply Preserves.bind (Preserves.within (fun _ _ => rfl) _)
  intro _
  apply Preserves.bind (Preserves.within (fun _ _ => rfl) _)
  intro _
  apply Preserves.bind (Preserves.within (fun _ _ => rfl) _)
  intro _
  exact Preserves.modify fun _ => rfl

theorem hufDecoderInit_keepsOutput (config : HufConfig ρ ω) :
    KeepsOutput (hufDecoderInit (some config)) := by
  apply Preserves.bind (Preserves.pure _)
  intro _
  apply Preserves.bind (Preserves.within (fun _ _ => rfl) _)
  intro _
  apply Preserves.bind
  · exact Preserves.modify fun _ => rfl
  intro _
  apply Preserves.bind (Preserves.within (fun _ _ => rfl) _)
  intro _
  apply Preserves.bind (Preserves.within (fun _ _ => rfl) _)
  intro _
  apply Preserves.bind (Preserves.within (fun _ _ => rfl) _)
  intro _
  apply Preserves.bind (Preserves.within (fun _ _ => rfl) _)
  intro _
  apply Preserves.bind (Preserves.within (fun _ _ => rfl) _)
  intro _
  exact Preserves.within (fun _ _ => rfl) _

/-- The last thing a successful run does is to flush its writer. -/
theorem decodeBody_empties (config : Option (HufConfig ρ ω)) :
    Triple (fun _ => True) (decodeBody config)
      (fun _ s => ∀ d : DecodeState ρ ω, s = d.run → d.writer.bufio.length = 0)
      fun _ _ => True := by
  apply Triple.unconditional.bind
  intro _
  apply Triple.unconditional.bind
  intro _
  apply Triple.unconditional.bind
  intro _
  apply Triple.within
  intro s _
  apply hufBufioReadWriterFlush_empties.mono (fun _ _ => trivial) _ fun _ _ h => h
  rintro _ b hempty d hrun
  rcases s with ⟨_ | self, world⟩
  · cases hrun
  · have hwriter : some (some b.bufio) = some (some d.writer.bufio) :=
      congrArg (fun s => s.1.map HufDecoder.bufioWriter) hrun
    rw [← Option.some.inj (Option.some.inj hwriter)]
    exact hempty

theorem DecodeState.run_injective {d d' : DecodeState ρ ω} (h : d.run = d'.run) : d = d' := by
  rcases d with ⟨config, ⟨tree, heap⟩, lastNode, ⟨writer, out⟩, ⟨reader, inp⟩⟩
  rcases d' with ⟨config', ⟨tree', heap'⟩, lastNode', ⟨writer', out'⟩, ⟨reader', inp'⟩⟩
  cases h
  rfl

section

variable {src : Source ρ} {sink : PartialSink ω} {config : HufConfig ρ ω} {world : World ρ ω}

/-- A new decoder is at the same place as the ideal one. -/
theorem decodeTwins_new (hvalid : src.valid world.input) (houtput : sink.valid world.output)
    (hbuffer : config.writerBufferSize ≤ sink.limit) {d : DecodeState ρ ω}
    (hspared : Spared world.heap.allocations (allocations d.tree))
    (hsame : schedule [] d.run =
      (newDecoder config src.readWriter sink.readWriter (schedule [] world)).run) :
    DecodeTwins src sink (sink.content world.output) world.heap.allocations d
      (newDecoder (idealConfig config) Fifo.readWriter Fifo.readWriter
        (idealWorld src sink world)) := by
  have hstate : { d with tree := schedule [] d.tree } =
      newDecoder config src.readWriter sink.readWriter (schedule [] world) :=
    DecodeState.run_injective hsame
  have htree := congrArg DecodeState.tree hstate
  have hreader := congrArg DecodeState.reader hstate
  have hwriter := congrArg DecodeState.writer hstate
  have hconfig := congrArg DecodeState.config hstate
  dsimp only at htree hreader hwriter hconfig
  constructor
  case blocksize =>
    rw [hconfig]
    rfl
  case length =>
    rw [hconfig]
    rfl
  case lastNode => exact (congrArg DecodeState.lastNode hstate).symm
  case tree => exact htree.symm
  case spared => exact hspared
  case reading =>
    refine ⟨(src.remaining world.input).length, src.remaining world.input, ?_, ?_⟩
    · rw [hreader]
      exact ⟨reading_newBufio src _ hvalid, Nat.zero_add _⟩
    · exact ⟨reading_newBufio Fifo.source 0 trivial, Nat.zero_add _⟩
  case writing =>
    refine ⟨sink.content world.output, ?_, ?_⟩
    · rw [hwriter]
      exact appending_newBufio sink houtput hbuffer
    · exact unbuffered_newBufio _

/-- The body of a call is tied to the body of the ideal call. -/
def DecodeTied (src : Source ρ) (sink : PartialSink ω) (config : HufConfig ρ ω)
    (world : World ρ ω) : Prop :=
  ObjectStates.BodyTied (DecodeState.states ρ ω) (DecodeState.states Fifo Fifo) sink world
    (DecodeTwins src sink (sink.content world.output) world.heap.allocations)
    (decodeBody (some config))
    (decodeBody (some (idealConfig config)) (none, idealWorld src sink world))

theorem decodeBody_ends (hreader : config.reader = some src.readWriter)
    (hwriter : config.writer = some sink.readWriter) (hready : Ready 5 (some config) world)
    (hvalid : src.valid world.input) (houtput : sink.valid world.output)
    (hlimit : 1 ≤ sink.limit) (hbuffer : config.writerBufferSize ≤ sink.limit) :
    DecodeTied src sink config world := by
  have hideal : hufDecoderInit (some (idealConfig config)) (none, idealWorld src sink world) =
      .ok (.ok (), (newDecoder (idealConfig config) Fifo.readWriter Fifo.readWriter
        (idealWorld src sink world)).run) := hufDecoderInit_eq rfl rfl rfl
  rw [DecodeTied, decodeBody, decodeBody, Routine.bind_of_ok hideal]
  apply ObjectStates.bodyTied_of_init hready (hufDecoderInit_ended config world)
    (hufDecoderInit_keepsOutput config) _ (decodeTie_decodeBlocks world hlimit)
  rintro _ hspared ⟨d, rfl, -⟩ hsame
  rw [hufDecoderInit_eq hreader hwriter rfl] at hsame
  exact ⟨d, _, rfl, rfl, decodeTwins_new hvalid houtput hbuffer hspared
    (congrArg Prod.snd (Except.ok.inj hsame)).symm⟩

/-- A call that returns has released its decoder, and what it has written is what its body
has written. -/
theorem hufDecode_of_body (hready : Ready 5 (some config) world) {r : Except HufError Unit}
    {s : DecodeRun ρ ω} (hbody : decodeBody (some config) (none, world) = .ok (r, s)) :
    ∃ world', hufDecode (some config) world = .ok (r, world') ∧
      world'.output = s.2.output :=
  ((decode_failsSafely_iff (some config) world).mpr hready).call_of_body
    hufDecoderFree_keepsOutput hbody

theorem decodeBody_of_ok {r : Except HufError Unit} {world' : World ρ ω}
    (hrun : hufDecode (some config) world = .ok (r, world')) :
    ∃ s, decodeBody (some config) (none, world) = .ok (r, s) ∧ world'.output = s.2.output :=
  body_of_call hufDecoderFree_keepsOutput hrun

end

/-- The ideal call that fails has kept what its output held before. -/
theorem decodeBody_extends {src : Source ρ} {sink : PartialSink ω} {config : HufConfig ρ ω}
    {world : World ρ ω} {code : HufError} {t : DecodeRun Fifo Fifo}
    (hbody : decodeBody (some (idealConfig config)) (none, idealWorld src sink world) =
      .ok (.error code, t)) : sink.content world.output <+: t.2.output.stored := by
  have hideal : Ready 5 (some (idealConfig config)) (idealWorld src sink world) := ready_ideal 5
  have hends := @decodeBody_ends _ _ Fifo.source (Fifo.sink.toPartialSink 1) _ _ rfl rfl hideal
    trivial trivial (Nat.le_refl 1) (Nat.zero_le 1)
  rcases hends with ⟨s, hrun, hsame, -⟩ | hends
  · rw [hbody] at hrun
    cases hrun
    rw [hsame]
    exact List.prefix_refl _
  · rw [hbody] at hends
    generalize decodeBody (some (idealConfig (idealConfig config))) _ = other at hends
    cases hends with
    | stop hs _ _ => exact hs.2
    | error hf =>
        rcases hf with ⟨d, d', rfl, -, written, happending, -⟩
        exact happending.begun

/-- How a call on real streams ends where reading its input ends in the given way. -/
def PartialResult (src : Source ρ) (sink : PartialSink ω) (config : HufConfig ρ ω)
    (world : World ρ ω) (outcome : Outcome Fault HufError (World ρ ω) Unit) : ReadEnd → Prop
  | .complete symbols _ => ∃ r world' written, outcome = .ok (r, world') ∧
      sink.content world'.output = sink.content world.output ++ written ∧ written <+: symbols ∧
      (r = .ok () → written = symbols ∧ sink.valid world'.output) ∧
      ∀ code, r = .error code → Interrupted sink world.heap.allocations code
  | .failed code => ∃ code' world' ideal, outcome = .ok (.error code', world') ∧
      (code' = code ∨ Interrupted sink world.heap.allocations code') ∧
      hufDecode (some (idealConfig config)) (idealWorld src sink world) =
        .ok (.error code, ideal) ∧
      sink.content world.output <+: sink.content world'.output ∧
      sink.content world'.output <+: ideal.output.stored
  | .crashed => outcome = .error .nullPointer ∨
      ∃ code world', outcome = .ok (.error code, world') ∧
        Interrupted sink world.heap.allocations code

section

variable {src : Source ρ} {sink : PartialSink ω} {config : HufConfig ρ ω} {world : World ρ ω}

/-- The input is complete. -/
theorem DecodeTied.complete (hbody : DecodeTied src sink config world)
    (hready : Ready 5 (some config) world) {ideal : World Fifo Fifo} {symbols : List UInt8}
    (hideal : hufDecode (some (idealConfig config)) (idealWorld src sink world) =
      .ok (.ok (), ideal))
    (hcontent : ideal.output.stored = sink.content world.output ++ symbols) (rest : List UInt8) :
    PartialResult src sink config world (hufDecode (some config) world)
      (.complete symbols rest) := by
  rcases decodeBody_of_ok hideal with ⟨t, hbodyIdeal, hsame⟩
  rw [DecodeTied, hbodyIdeal] at hbody
  rw [hsame] at hcontent
  exact hbody.complete DecodeState.states_lawful DecodeState.states_lawful
    (decodeTwins_twinned src sink _ _) ((decode_failsSafely_iff (some config) world).mpr hready)
    hufDecoderFree_keepsOutput
    (fun d hrun => (decodeBody_empties _ _ trivial).1 _ _ hrun d rfl) hcontent

/-- The input has a fault that is answered with a code. -/
theorem DecodeTied.failed (hbody : DecodeTied src sink config world)
    (hready : Ready 5 (some config) world) {ideal : World Fifo Fifo} {code : HufError}
    (hideal : hufDecode (some (idealConfig config)) (idealWorld src sink world) =
      .ok (.error code, ideal)) :
    PartialResult src sink config world (hufDecode (some config) world) (.failed code) := by
  rcases decodeBody_of_ok hideal with ⟨t, hbodyIdeal, hsameIdeal⟩
  rcases hbody with ⟨s, hbody, hsame, hfailed⟩ | hends
  · rcases hufDecode_of_body hready hbody with ⟨world', hrun, hout⟩
    refine ⟨_, world', ideal, hrun, .inr (.inl ⟨rfl, hfailed⟩), hideal, ?_, ?_⟩
    · simp [hout, hsame]
    · rw [hout, hsame, hsameIdeal]
      exact decodeBody_extends hbodyIdeal
  rw [hbodyIdeal] at hends
  rcases hends.error_left with ⟨s, hbody, d, d', rfl, rfl, written, happending, hwriting⟩ |
    ⟨code', s, hbody, ⟨hcause, hbegun⟩, d', rfl, accepted, hwriting, hpart⟩
  · rcases hufDecode_of_body hready hbody with ⟨world', hrun, hout⟩
    refine ⟨code, world', ideal, hrun, .inl rfl, hideal, ?_, ?_⟩
    · rw [hout]
      exact happending.begun
    · rw [hout, hsameIdeal]
      exact hwriting.stored ▸ happending.begins
  · rcases hufDecode_of_body hready hbody with ⟨world', hrun, hout⟩
    refine ⟨code', world', ideal, hrun, .inr hcause, hideal, ?_, ?_⟩
    · rw [hout]
      exact hbegun
    · rw [hout, hsameIdeal]
      exact hwriting.stored ▸ hpart

/-- On ideal streams the null pointer is followed in front of the release. -/
theorem decodeBody_of_fault
    (hideal : hufDecode (some (idealConfig config)) (idealWorld src sink world) =
      .error .nullPointer) :
    decodeBody (some (idealConfig config)) (none, idealWorld src sink world) =
      .error .nullPointer := by
  rcases hrun : decodeBody (some (idealConfig config)) (none, idealWorld src sink world) with
    fault | ⟨r, t⟩
  · have hsame : hufDecode (some (idealConfig config)) (idealWorld src sink world) =
        .error fault := Routine.withLocal_of_fault (Routine.ensuring_of_fault hrun)
    exact congrArg Except.error (Except.error.inj (hsame.symm.trans hideal))
  · rcases hufDecode_of_body (ready_ideal 5) hrun with ⟨world', hok, -⟩
    exact nomatch hok.symm.trans hideal

/-- The input leads to a null pointer. -/
theorem DecodeTied.crashed (hbody : DecodeTied src sink config world)
    (hready : Ready 5 (some config) world)
    (hideal : hufDecode (some (idealConfig config)) (idealWorld src sink world) =
      .error .nullPointer) :
    PartialResult src sink config world (hufDecode (some config) world) .crashed := by
  rcases hbody with ⟨s, hbody, -, hfailed⟩ | hends
  · rcases hufDecode_of_body hready hbody with ⟨world', hrun, -⟩
    exact .inr ⟨_, world', hrun, .inl ⟨rfl, hfailed⟩⟩
  rw [decodeBody_of_fault hideal] at hends
  rcases hends.fault_left with hbody | ⟨code, s, hbody, hcause, -⟩
  · exact .inl (Routine.withLocal_of_fault (Routine.ensuring_of_fault hbody))
  · rcases hufDecode_of_body hready hbody with ⟨world', hrun, -⟩
    exact .inr ⟨code, world', hrun, hcause⟩

end

/-- `huf_decode` under every schedule of allocations, of any input, and for every stream
that fails after parts of writes. -/
theorem hufDecode_partial (src : Source ρ) (sink : PartialSink ω) (config : HufConfig ρ ω)
    (world : World ρ ω) (hreader : config.reader = some src.readWriter)
    (hwriter : config.writer = some sink.readWriter) (hready : Ready 5 (some config) world)
    (hvalid : src.valid world.input) (houtput : sink.valid world.output)
    (hlimit : 1 ≤ sink.limit) (hbuffer : config.writerBufferSize ≤ sink.limit) :
    PartialResult src sink config world (hufDecode (some config) world)
      (readBlocks config.length (src.remaining world.input)) := by
  have hideal := hufDecode_ends Fifo.source Fifo.sink (idealConfig config)
    (idealWorld src sink world) rfl rfl rfl trivial
  have hremaining : Fifo.source.remaining (idealWorld src sink world).input =
      src.remaining world.input := rfl
  rw [hremaining, show (idealConfig config).length = config.length from rfl] at hideal
  have hbody := decodeBody_ends hreader hwriter hready hvalid houtput hlimit hbuffer
  cases hread : readBlocks config.length (src.remaining world.input) with
  | complete symbols rest =>
      rw [hread] at hideal
      rcases hideal with ⟨ideal, hrun, hcontent, -⟩
      exact hbody.complete hready hrun hcontent rest
  | failed code =>
      rw [hread] at hideal
      rcases hideal with ⟨ideal, hrun⟩
      exact hbody.failed hready hrun
  | crashed =>
      rw [hread] at hideal
      exact hbody.crashed hready hideal

end LibHuffman
