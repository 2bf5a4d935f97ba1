/-
# Frequency histogram of `histogram.c`
-/

import LibHuffman.Model.System
import LibHuffman.Foundation.Bytes

namespace LibHuffman

open Foundation

/-- `huf_histogram_t` -/
structure HufHistogram where
  frequencies : List ℕ
  iota : ℕ
  length : ℕ
  start : ℕ
  deriving DecidableEq

/-- `huf_histogram_init` -/
def hufHistogramInit (iota length : ℕ) : CRoutine (Creation HufHistogram) Unit := do
  if iota = 0 then
    Routine.fail .invalidArgument
  if length = 0 then
    Routine.fail .invalidArgument
  Creation.malloc
  Creation.assign ⟨[], 0, 0, 0⟩
  Creation.malloc
  Creation.assign ⟨List.replicate length 0, iota, length, sizeMax⟩

/-- `huf_histogram_free` -/
def hufHistogramFree : CRoutine (Option HufHistogram) Unit := do
  let _ ← Routine.demand (deref (← Routine.get))
  Routine.modify fun _ => none

/-- `huf_histogram_reset` -/
def hufHistogramReset : CRoutine HufHistogram Unit :=
  Routine.modify fun self =>
    { self with frequencies := List.replicate self.length 0, start := sizeMax }

/-- Count one element. -/
def countElement (element : ℕ) : CRoutine HufHistogram Unit := do
  let self ← Routine.get
  let frequency ← Routine.demand (load self.frequencies element)
  let frequencies ← Routine.demand (store self.frequencies element ((frequency + 1) % 2 ^ 64))
  let start := if element < self.start ∨ self.start = sizeMax then element else self.start
  Routine.modify fun self => { self with frequencies, start }

/-- `huf_histogram_populate`. An element is copied into eight bytes. -/
def hufHistogramPopulate (buf : List UInt8) : CRoutine HufHistogram Unit := do
  let _ ← Routine.whileLoop .endless
    (fun buf => do return decide ((← Routine.get).iota ≤ buf.length))
    (fun buf => do
      let iota := (← Routine.get).iota
      let element ← Routine.demand (memcpy (List.replicate 8 0) 0 (buf.take iota))
      countElement (leNat element)
      return .next (buf.drop iota))
    (buf.length + 1) buf

end LibHuffman
