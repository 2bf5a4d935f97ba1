/-
# Failing safely

`huf_encode` and `huf_decode` run a body and release their object wherever it has
stopped. The release follows all pointers of the object, so what decides is whether
they are set by then.
-/

import LibHuffman.Allocation.Decoding
import LibHuffman.Allocation.Encoding
import LibHuffman.Decode.Acceptance

namespace LibHuffman

open Foundation Routine

variable {ρ ω : Type}

theorem hufEncode_eq_ensuring (config : Option (HufConfig ρ ω)) :
    hufEncode config = withLocal none (ensuring (encodeBody config) hufEncoderFree) := rfl

theorem hufDecode_eq_ensuring (config : Option (HufConfig ρ ω)) :
    hufDecode config = withLocal none (ensuring (decodeBody config) hufDecoderFree) := rfl

/-- A call fails safely if it is given both streams and the allocations up to the
structure of its buffered reader succeed, and only then. -/
theorem calls_failSafely_iff (config : Option (HufConfig ρ ω)) (world : World ρ ω)
    (hlength : ∀ c, config = some c → c.length < 2 ^ 64) :
    (FailsSafely (encodeBody config) hufEncoderFree config world ↔ Ready 9 config world) ∧
      (FailsSafely (decodeBody config) hufDecoderFree config world ↔ Ready 5 config world) :=
  ⟨encode_failsSafely_iff config world hlength, decode_failsSafely_iff config world⟩

/-- The eleventh allocation fails: the decoder does not get there, and the encoder has
its reader by then. -/
theorem calls_failSafely_eleventh :
    let world : World Fifo Fifo := { fifoWorld [1, 2, 3] with
      heap := ⟨fun _ => none, 0, List.replicate 10 true ++ [false]⟩ }
    FailsSafely (encodeBody (some (fifoConfig 3 0 0))) hufEncoderFree (some (fifoConfig 3 0 0))
        world ∧
      FailsSafely (decodeBody (some (fifoConfig 3 0 0))) hufDecoderFree (some (fifoConfig 3 0 0))
        world := by
  intro world
  have hcalls := calls_failSafely_iff (some (fifoConfig 3 0 0)) world
    fun c hc => by cases hc; decide
  have hgranted : Granted world.heap.allocations 10 := by
    show false ∉ _
    decide
  exact ⟨hcalls.1.mpr ⟨_, rfl, by decide, by decide, hgranted⟩,
    hcalls.2.mpr ⟨_, rfl, by decide, by decide, hgranted.mono (by decide)⟩⟩

/-- Without a configuration nothing is created, and the release follows the null
pointer. -/
theorem not_failsSafely_none :
    ¬ FailsSafely (encodeBody none) hufEncoderFree none (fifoWorld []) ∧
      ¬ FailsSafely (decodeBody none) hufDecoderFree none (fifoWorld []) := by
  apply And.intro
  · intro h
    have hrun : encodeBody none (none, fifoWorld []) =
        .ok (.error .invalidArgument, (none, fifoWorld [])) := rfl
    have hfree : hufEncoderFree (none, fifoWorld []) = .error .nullPointer := rfl
    rcases h.released _ _ hrun with ⟨q, s, hok⟩
    cases hfree.symm.trans hok
  · intro h
    have hrun : decodeBody none (none, fifoWorld []) =
        .ok (.error .invalidArgument, (none, fifoWorld [])) := rfl
    have hfree : hufDecoderFree (none, fifoWorld []) = .error .nullPointer := rfl
    rcases h.released _ _ hrun with ⟨q, s, hok⟩
    cases hfree.symm.trans hok

end LibHuffman
