/-
# Streams that answer alike

The library knows its streams only by their two functions. If two kinds of streams answer
every call alike, then a buffered stream over the one does what a buffered stream over the
other does. The first kind may meet faults of its own, and may be promised that no write is
too long for it.
-/

import LibHuffman.Foundation.Mirror
import LibHuffman.Model.Bufio

namespace LibHuffman

open Foundation

/-- How streams of the first kind are like streams of the second one. -/
structure Likeness (Stray : Fault → Prop) (σ τ : Type) where
  first : HufReadWriter σ
  second : HufReadWriter τ
  like : σ → τ → Prop
  /-- The lengths of the writes that are promised. -/
  Allows : ℕ → Prop
  allows_of_le : ∀ m n, m ≤ n → Allows n → Allows m
  write_alike : ∀ data, Allows data.length →
    Mirrors Stray like (first.write data) (second.write data) fun _ => True
  read_alike : ∀ count s t, like s t → ∃ result s' t',
    first.read count s = .ok (result, s') ∧ second.read count t = .ok (result, t') ∧ like s' t'

variable {Stray : Fault → Prop} {σ τ α : Type}

namespace Likeness

variable (L : Likeness Stray σ τ)

/-- The functions of a stream of the first kind and of one of the second kind. -/
def functions (r : HufReadWriter σ) (r' : HufReadWriter τ) : Prop :=
  r = L.first ∧ r' = L.second

/-- Two buffers with the same content, in front of streams that are alike. -/
structure buffers (b : HufBufioReadWriter σ) (b' : HufBufioReadWriter τ) : Prop where
  bytes : b'.bytes = b.bytes
  offset : b'.offset = b.offset
  capacity : b'.capacity = b.capacity
  length : b'.length = b.length
  haveBeenProcessed : b'.haveBeenProcessed = b.haveBeenProcessed
  readWriter : L.functions b.readWriter b'.readWriter
  allowed : L.Allows b.bytes.length

/-- Two buffered streams. -/
structure buffered (b : Buffered σ) (b' : Buffered τ) : Prop where
  bufio : L.buffers b.bufio b'.bufio
  stream : L.like b.stream b'.stream

end Likeness

section

variable {L : Likeness Stray σ τ} {V : α → Prop}

/-- A change of the buffers that keeps them the same. -/
theorem onBufio_mirrors {change : HufBufioReadWriter σ → HufBufioReadWriter σ}
    {change' : HufBufioReadWriter τ → HufBufioReadWriter τ}
    (h : ∀ b b', L.buffers b b' → L.buffers (change b) (change' b')) :
    Mirrors Stray L.buffered
      (Routine.modify (Buffered.onBufio change) : CRoutine (Buffered σ) Unit)
      (Routine.modify (Buffered.onBufio change') : CRoutine (Buffered τ) Unit) fun _ => True :=
  Mirrors.modify fun _ _ hb => ⟨h _ _ hb.bufio, hb.stream⟩

theorem onBufio_mirrors_bind {β : Type} {W : β → Prop}
    {change : HufBufioReadWriter σ → HufBufioReadWriter σ}
    {change' : HufBufioReadWriter τ → HufBufioReadWriter τ} {f : Unit → CRoutine (Buffered σ) β}
    {g : Unit → CRoutine (Buffered τ) β}
    (h : ∀ b b', L.buffers b b' → L.buffers (change b) (change' b'))
    (hnext : Mirrors Stray L.buffered (f ()) (g ()) W) :
    Mirrors Stray L.buffered (Routine.modify (Buffered.onBufio change) >>= f)
      (Routine.modify (Buffered.onBufio change') >>= g) W :=
  (onBufio_mirrors h).bind fun _ _ => hnext

theorem underlying_corresponds : Corresponds Buffered.underlying Buffered.underlying L.buffered
    L.like :=
  fun _ _ hb => .inr ⟨_, _, rfl, rfl, hb.stream, fun _ _ hs => ⟨hb.bufio, hs⟩⟩

/-! ## Writing -/

theorem writeUnderlying_mirrors {data : List UInt8} (hdata : L.Allows data.length) :
    Mirrors Stray L.buffered (writeUnderlying data) (writeUnderlying data) fun _ => True := by
  apply Mirrors.get_bind
  intro b b' hb
  dsimp only
  rw [hb.bufio.readWriter.1, hb.bufio.readWriter.2]
  exact (L.write_alike data hdata).within underlying_corresponds

theorem hufBufioReadWriterFlush_mirrors :
    Mirrors Stray L.buffered hufBufioReadWriterFlush hufBufioReadWriterFlush
      fun _ => True := by
  apply Mirrors.get_bind
  intro b b' hb
  dsimp only
  rw [hb.bufio.length, hb.bufio.bytes]
  apply Mirrors.ite
  · intro _
    apply Mirrors.demand_bind
    intro data hdata
    have hle := le_of_slice hdata
    have hlen := length_slice hdata
    apply (writeUnderlying_mirrors (L.allows_of_le _ _ (by omega) hb.bufio.allowed)).bind
    intro _ _
    apply onBufio_mirrors_bind
    · exact fun _ _ h => { h with length := rfl }
    apply onBufio_mirrors
    intro c c' h
    exact { h with haveBeenProcessed := by rw [h.haveBeenProcessed, h.length] }
  · exact fun _ => Mirrors.pure trivial

theorem hufBufioReadWriterFlushFull_mirrors :
    Mirrors Stray L.buffered hufBufioReadWriterFlushFull hufBufioReadWriterFlushFull
      fun _ => True := by
  apply Mirrors.get_bind
  intro b b' hb
  dsimp only
  rw [hb.bufio.length, hb.bufio.capacity, hb.bufio.bytes]
  apply Mirrors.ite
  · intro _
    apply Mirrors.demand_bind
    intro data hdata
    have hle := le_of_slice hdata
    have hlen := length_slice hdata
    apply (writeUnderlying_mirrors (L.allows_of_le _ _ (by omega) hb.bufio.allowed)).bind
    intro _ _
    apply onBufio_mirrors_bind
    · intro c c' h
      exact { h with haveBeenProcessed := by rw [h.haveBeenProcessed, h.length] }
    apply onBufio_mirrors_bind
    · exact fun _ _ h => { h with length := rfl }
    apply Mirrors.get_bind
    intro c c' hc
    rw [hc.bufio.length]
    apply Mirrors.ite
    · exact fun _ => Mirrors.fail _
    · exact fun _ => Mirrors.pure trivial
  · exact fun _ => Mirrors.pure trivial

/-- A write passes on what it is given, or what the buffer holds. -/
theorem hufBufioWrite_mirrors {buf : List UInt8} (hbuf : L.Allows buf.length) :
    Mirrors Stray L.buffered (hufBufioWrite buf) (hufBufioWrite buf) fun _ => True := by
  apply hufBufioReadWriterFlushFull_mirrors.bind
  intro _ _
  apply Mirrors.get_bind
  intro b b' hb
  dsimp only
  rw [hb.bufio.capacity, hb.bufio.length, hb.bufio.bytes]
  apply Mirrors.ite
  · intro _
    apply Mirrors.demand_bind
    intro bytes hbytes
    apply onBufio_mirrors
    intro c c' h
    refine { h with
      bytes := rfl
      length := by rw [h.length]
      haveBeenProcessed := by rw [h.haveBeenProcessed]
      allowed := ?_ }
    show L.Allows bytes.length
    rw [length_memcpy hbytes]
    exact hb.bufio.allowed
  · intro _
    apply Mirrors.ite
    · intro _
      apply hufBufioReadWriterFlush_mirrors.bind
      intro _ _
      apply (writeUnderlying_mirrors hbuf).bind
      intro _ _
      apply onBufio_mirrors
      intro c c' h
      exact { h with haveBeenProcessed := by rw [h.haveBeenProcessed] }
    · exact fun _ => Mirrors.pure trivial

/-! ## Reading -/

theorem readUnderlying_mirrors (count : ℕ) :
    Mirrors Stray L.buffered (readUnderlying count) (readUnderlying count) fun _ => True := by
  intro b b' hb
  rcases L.read_alike count _ _ hb.stream with ⟨result, s, t, hread, hread', hlike⟩
  rw [readUnderlying, readUnderlying, hb.bufio.readWriter.1, hb.bufio.readWriter.2, hread, hread']
  exact .leave (fun _ _ => trivial) ⟨hb.bufio, hlike⟩

theorem raise_mirrors (result : ReadResult) :
    Mirrors Stray L.buffered result.raise result.raise fun _ => True := by
  rw [ReadResult.raise, ReadResult.raise]
  cases result.code with
  | none => exact Mirrors.pure trivial
  | some code => exact Mirrors.fail code

theorem copyBuffered_mirrors (len : ℕ) :
    Mirrors Stray L.buffered (copyBuffered len) (copyBuffered len) fun _ => True := by
  apply Mirrors.get_bind
  intro b b' hb
  dsimp only
  rw [hb.bufio.length, hb.bufio.offset, hb.bufio.bytes]
  apply Mirrors.ite
  · intro _
    apply Mirrors.demand_bind
    intro data _
    apply onBufio_mirrors_bind
    · intro c c' h
      exact { h with offset := by rw [h.offset] }
    · exact Mirrors.pure trivial
  · exact fun _ => Mirrors.pure trivial

theorem readThrough_mirrors (buf : List UInt8) :
    Mirrors Stray L.buffered (readThrough buf) (readThrough buf) fun _ => True := by
  apply Mirrors.get_bind
  intro b b' hb
  dsimp only
  rw [hb.bufio.capacity, hb.bufio.bytes]
  apply Mirrors.ite
  · intro _
    apply (readUnderlying_mirrors _).bind
    intro result _
    apply (raise_mirrors result).bind
    intro _ _
    apply Mirrors.demand_bind
    intro buf' _
    apply onBufio_mirrors_bind
    · exact fun _ _ h => { h with length := rfl, offset := rfl }
    apply Mirrors.ite
    · exact fun _ => Mirrors.fail _
    · exact fun _ => Mirrors.pure trivial
  · intro _
    apply (readUnderlying_mirrors _).bind
    intro result _
    apply Mirrors.demand_bind
    intro bytes hbytes
    apply onBufio_mirrors_bind
    · intro c c' h
      refine { h with bytes := rfl, length := rfl, allowed := ?_ }
      show L.Allows bytes.length
      rw [length_memcpy hbytes]
      exact hb.bufio.allowed
    apply (raise_mirrors result).bind
    intro _ _
    apply Mirrors.ite
    · exact fun _ => Mirrors.fail _
    · intro _
      apply Mirrors.demand_bind
      intro buf' _
      apply onBufio_mirrors_bind
      · exact fun _ _ h => { h with offset := rfl }
      · exact Mirrors.pure trivial

/-- The end of a read: count its bytes and return its data. -/
theorem countRead_mirrors (count : ℕ) (data : List UInt8) :
    Mirrors Stray L.buffered
      (do
        Routine.modify (Buffered.onBufio fun self =>
          { self with haveBeenProcessed := self.haveBeenProcessed + count })
        return data : CRoutine (Buffered σ) (List UInt8))
      (do
        Routine.modify (Buffered.onBufio fun self =>
          { self with haveBeenProcessed := self.haveBeenProcessed + count })
        return data : CRoutine (Buffered τ) (List UInt8)) fun _ => True := by
  apply onBufio_mirrors_bind
  · intro b b' h
    exact { h with haveBeenProcessed := by rw [h.haveBeenProcessed] }
  · exact Mirrors.pure trivial

theorem hufBufioRead_mirrors (buf : List UInt8) :
    Mirrors Stray L.buffered (hufBufioRead buf) (hufBufioRead buf) fun _ => True := by
  apply (copyBuffered_mirrors _).bind
  intro copied _
  apply Mirrors.ite
  · intro _
    exact Mirrors.bind (V := fun _ => True) (Mirrors.pure trivial) fun _ _ =>
      countRead_mirrors _ _
  · intro _
    exact (readThrough_mirrors _).bind fun _ _ => countRead_mirrors _ _

theorem hufBufioReadUint8_mirrors (byte : UInt8) :
    Mirrors Stray L.buffered (hufBufioReadUint8 byte) (hufBufioReadUint8 byte)
      fun _ => True := by
  apply (hufBufioRead_mirrors _).bind
  exact fun _ _ => Mirrors.demand fun _ _ => trivial

end

end LibHuffman
