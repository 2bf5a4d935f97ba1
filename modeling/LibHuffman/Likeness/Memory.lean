/-
# In-memory streams are like ideal ones

An in-memory stream answers every call as the ideal stream does, or copies past its block.
That happens only where a growth does not make room, and never in writes that are not longer
than its block or that are of one byte. A stream that is only read keeps its block.
-/

import LibHuffman.Likeness.Bufio
import LibHuffman.Streams.Memory

namespace LibHuffman

open Foundation

/-- A copy past the end of a block, which streams that are safe do not make. -/
def Overrun (safe : Prop) (fault : Fault) : Prop := ¬ safe ∧ fault = .outOfBounds

/-- An in-memory stream in the state of an ideal one, of a block whose capacity is as `P`
says. -/
structure Holding (P : ℕ → Prop) (s : MemStream) (fifo : Fifo) : Prop extends Stores s fifo where
  capacity : P s.mem.cap

section

variable {P Q : ℕ → Prop} {Stray : Fault → Prop} {limit : ℕ} {safe : Prop} {s : MemStream}
  {fifo : Fifo}

theorem holding_newMemStream {capacity : ℕ} (h : P capacity) :
    Holding P (newMemStream capacity) Fifo.empty where
  toStores := stores_newMemStream capacity
  capacity := h

theorem Holding.mono (h : Holding P s fifo) (hPQ : ∀ cap, P cap → Q cap) : Holding Q s fifo where
  toStores := h.toStores
  capacity := hPQ _ h.capacity

/-- A block is not replaced by a smaller one. -/
theorem le_capAfter (cap len : ℕ) (buf : List UInt8) :
    cap ≤ (MemCall.write buf).capAfter cap len := by
  rw [MemCall.capAfter]
  split
  · exact Nat.le_refl _
  · split <;> omega

/-- A write is that of the ideal stream where the growth makes room. -/
theorem memwrite_alike (h : Holding P s fifo) (buf : List UInt8)
    (hroom : MemCall.Fits s.mem.cap s.mem.len (.write buf))
    (hcap : Q ((MemCall.write buf).capAfter s.mem.cap s.mem.len)) :
    Alike Stray (Holding Q) (fun _ => True) (memwrite buf s)
      (Fifo.readWriter.write buf fifo) := by
  rw [MemCall.capAfter] at hcap
  split at hcap
  · rename_i hfit
    rcases memwrite_fits h.toStores hfit with ⟨s', hrun, hstores, -, hsame⟩
    rw [hrun]
    exact .leave (fun _ _ => trivial) ⟨hstores, hsame ▸ hcap⟩
  · rename_i hfull
    have hgrown := (le_grownCapacity_iff h.len_le buf.length).mpr hroom
    rcases memwrite_grows h.toStores (by omega) hgrown with ⟨s', hrun, hstores, -, hnew⟩
    rw [hrun]
    exact .leave (fun _ _ => trivial) ⟨hstores, hnew ▸ hcap⟩

/-- Otherwise it copies past the new block. -/
theorem memwrite_of_not_fits (h : Stores s fifo) {buf : List UInt8}
    (hroom : ¬ MemCall.Fits s.mem.cap s.mem.len (.write buf)) :
    memwrite buf s = .error .outOfBounds := by
  have hsmall : grownCapacity s.mem.cap buf.length < s.mem.len + buf.length := by
    by_contra hle
    exact hroom ((le_grownCapacity_iff h.len_le buf.length).mp (Nat.le_of_not_lt hle))
  rw [MemCall.Fits] at hroom
  exact memwrite_overruns h (by omega) hsmall

theorem memread_alike (h : Holding P s fifo) (count : ℕ) : ∃ result s' fifo',
    memread count s = .ok (result, s') ∧ Fifo.readWriter.read count fifo = .ok (result, fifo') ∧
      Holding P s' fifo' := by
  rcases memread_eq h.toStores count with ⟨s', hrun, hstores, -, hcap⟩
  exact ⟨_, s', _, hrun, rfl, hstores, hcap ▸ h.capacity⟩

/-- A write that is not longer than the block, or of one byte, if it has to be safe. -/
theorem memwrite_mirrors {data : List UInt8} (hdata : safe → data.length ≤ max limit 1) :
    Mirrors (Overrun safe) (Holding (limit ≤ ·)) (memwrite data) (Fifo.readWriter.write data)
      fun _ => True := by
  intro s fifo h
  have hlimit := h.capacity
  have hlen := h.len_le
  by_cases hroom : MemCall.Fits s.mem.cap s.mem.len (.write data)
  · exact memwrite_alike h data hroom (Nat.le_trans hlimit (le_capAfter _ _ data))
  · rw [memwrite_of_not_fits h.toStores hroom]
    rw [MemCall.Fits] at hroom
    refine .stray ⟨fun hs => ?_, rfl⟩
    have := hdata hs
    omega

/-- A write of nothing. -/
theorem memwrite_nothing_mirrors {data : List UInt8} (hdata : data.length = 0) :
    Mirrors Stray (Holding P) (memwrite data) (Fifo.readWriter.write data) fun _ => True := by
  intro s fifo h
  have hlen := h.len_le
  have hsame : (MemCall.write data).capAfter s.mem.cap s.mem.len = s.mem.cap := by
    rw [MemCall.capAfter, if_pos (by omega)]
  apply memwrite_alike h data
  · rw [MemCall.Fits]
    omega
  · rw [hsame]
    exact h.capacity

/-- In-memory streams of blocks of at least `limit` bytes. They are safe if no write of more than
one byte is longer than that. -/
def memLikeness (limit : ℕ) (safe : Prop) : Likeness (Overrun safe) MemStream Fifo where
  first := memReadWriter
  second := Fifo.readWriter
  like := Holding (limit ≤ ·)
  Allows n := safe → n ≤ max limit 1
  allows_of_le _ _ hle h hs := Nat.le_trans hle (h hs)
  write_alike _ hdata := memwrite_mirrors hdata
  read_alike count _ _ h := memread_alike h count

/-- In-memory streams that are only read. -/
def memSourceLikeness (Stray : Fault → Prop) (P : ℕ → Prop) : Likeness Stray MemStream Fifo where
  first := memReadWriter
  second := Fifo.readWriter
  like := Holding P
  Allows n := n = 0
  allows_of_le _ _ hle h := Nat.le_zero.mp (h ▸ hle)
  write_alike _ hdata := memwrite_nothing_mirrors hdata
  read_alike count _ _ h := memread_alike h count

end

end LibHuffman
