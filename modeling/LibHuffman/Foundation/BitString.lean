/-
# Bit strings in bytes

A byte holds eight bits, the most significant one first. `bytesBits` reads bytes
as a bit string and `pack` stores a bit string in as few bytes as possible, with
zeros in the free positions of the last one.
-/

import LibHuffman.Foundation.Bytes
import Mathlib.Data.Nat.Bitwise

namespace LibHuffman.Foundation

/-! ## The bits of a byte -/

/-- Bit `n` of a byte, bit 0 being the least significant. -/
def bitAt (byte : UInt8) (n : ℕ) : Bool := (byte >>> UInt8.ofNat n) &&& 1 ≠ 0

/-- The low `n` bits of a byte, the most significant of them first. -/
def bitsBelow (byte : UInt8) : ℕ → List Bool
  | 0 => []
  | n + 1 => bitAt byte n :: bitsBelow byte n

/-- The bits of a byte. -/
def byteBits (byte : UInt8) : List Bool := bitsBelow byte 8

/-- The bits of a byte string. -/
def bytesBits (bytes : List UInt8) : List Bool := bytes.flatMap byteBits

/-- A byte that has one bit at most, in position `n`. -/
def placedBit (bit : Bool) (n : ℕ) : UInt8 := (if bit then 1 else 0) <<< UInt8.ofNat n

/-- Enter bits into a byte, the first one below position `offset`. -/
def placeBits : ℕ → List Bool → UInt8 → UInt8
  | _, [], byte => byte
  | offset, bit :: bits, byte =>
    placeBits (offset - 1) bits (byte ||| placedBit bit (offset - 1))

/-- At most eight bits as a byte. -/
def packByte (bits : List Bool) : UInt8 := placeBits 8 bits 0

/-- A bit string as bytes. -/
def pack (bits : List Bool) : List UInt8 := (cut 8 bits).map packByte

@[simp] theorem length_bitsBelow (byte : UInt8) (n : ℕ) : (bitsBelow byte n).length = n := by
  induction n with
  | zero => rfl
  | succ n ih => rw [bitsBelow, List.length_cons, ih]

@[simp] theorem length_byteBits (byte : UInt8) : (byteBits byte).length = 8 :=
  length_bitsBelow byte 8

@[simp] theorem length_bytesBits (bytes : List UInt8) :
    (bytesBits bytes).length = 8 * bytes.length := by
  induction bytes with
  | nil => rfl
  | cons byte bytes ih =>
      rw [bytesBits, List.flatMap_cons, List.length_append, ← bytesBits, ih, length_byteBits,
        List.length_cons]
      omega

theorem bytesBits_cons (byte : UInt8) (bytes : List UInt8) :
    bytesBits (byte :: bytes) = byteBits byte ++ bytesBits bytes := rfl

theorem bytesBits_append (xs ys : List UInt8) :
    bytesBits (xs ++ ys) = bytesBits xs ++ bytesBits ys := List.flatMap_append

/-! ## Packing -/

theorem bitAt_eq_testBit (byte : UInt8) {n : ℕ} (hn : n < 8) :
    bitAt byte n = byte.toNat.testBit n := by
  have hshift : (byte >>> UInt8.ofNat n).toNat = byte.toNat >>> n := by
    rw [UInt8.toNat_shiftRight, UInt8.toNat_ofNat']
    congr 1
    omega
  have hlow : ((byte >>> UInt8.ofNat n) &&& 1).toNat = (byte.toNat >>> n) % 2 := by
    rw [UInt8.toNat_and, hshift]
    exact Nat.and_one_is_mod _
  rw [bitAt, Nat.testBit_eq_decide_div_mod_eq, ← Nat.shiftRight_eq_div_pow, ← hlow]
  simp only [ne_eq, ← UInt8.toNat_inj]
  rw [hlow]
  simp

theorem bitAt_or (x y : UInt8) {n : ℕ} (hn : n < 8) :
    bitAt (x ||| y) n = (bitAt x n || bitAt y n) := by
  rw [bitAt_eq_testBit _ hn, bitAt_eq_testBit _ hn, bitAt_eq_testBit _ hn, UInt8.toNat_or,
    Nat.testBit_or]

theorem bitAt_placedBit (bit : Bool) {m n : ℕ} (hm : m < 8) (hn : n < 8) :
    bitAt (placedBit bit m) n = (bit && decide (n = m)) := by
  have hall : ∀ (bit : Bool) (m n : Fin 8),
      bitAt (placedBit bit m.val) n.val = (bit && decide (n.val = m.val)) := by decide
  exact hall bit ⟨m, hm⟩ ⟨n, hn⟩

/-- Entered bits leave the positions from `offset` on alone. -/
theorem bitAt_placeBits (bits : List Bool) {offset n : ℕ} (byte : UInt8) (hn : n < 8)
    (hoffset : offset ≤ n) (hlen : bits.length ≤ offset) :
    bitAt (placeBits offset bits byte) n = bitAt byte n := by
  induction bits generalizing offset byte with
  | nil => rfl
  | cons bit bits ih =>
      rw [List.length_cons] at hlen
      rw [placeBits, ih _ (by omega) (by omega), bitAt_or _ _ hn,
        bitAt_placedBit bit (by omega) hn, decide_eq_false (by omega), Bool.and_false,
        Bool.or_false]

theorem bitsBelow_eq_replicate {byte : UInt8} {n : ℕ} (h : ∀ i < n, bitAt byte i = false) :
    bitsBelow byte n = List.replicate n false := by
  induction n with
  | zero => rfl
  | succ n ih =>
      rw [bitsBelow, h n (Nat.lt_succ_self n), ih fun i hi => h i (by omega),
        List.replicate_succ]

theorem bitsBelow_placeBits (bits : List Bool) {offset : ℕ} (byte : UInt8) (hoffset : offset ≤ 8)
    (hlen : bits.length ≤ offset) (hfree : ∀ i < offset, bitAt byte i = false) :
    bitsBelow (placeBits offset bits byte) offset =
      bits ++ List.replicate (offset - bits.length) false := by
  induction bits generalizing offset byte with
  | nil => exact bitsBelow_eq_replicate hfree
  | cons bit bits ih =>
      rw [List.length_cons] at hlen
      obtain ⟨n, rfl⟩ : ∃ n, offset = n + 1 := ⟨offset - 1, by omega⟩
      have hplaced : ∀ i < n, bitAt (byte ||| placedBit bit n) i = false := by
        intro i hi
        rw [bitAt_or _ _ (by omega), hfree i (by omega), bitAt_placedBit bit (by omega) (by omega),
          decide_eq_false (by omega), Bool.and_false, Bool.or_false]
      have hbit : bitAt (byte ||| placedBit bit n) n = bit := by
        rw [bitAt_or _ _ (by omega), hfree n (by omega), bitAt_placedBit bit (by omega) (by omega),
          decide_eq_true rfl, Bool.and_true, Bool.false_or]
      rw [placeBits, Nat.add_sub_cancel, bitsBelow,
        bitAt_placeBits bits _ (by omega) (Nat.le_refl n) (by omega), hbit,
        ih _ (by omega) (by omega) hplaced, List.length_cons, Nat.add_sub_add_right,
        List.cons_append]

theorem byteBits_packByte {bits : List Bool} (hlen : bits.length ≤ 8) :
    byteBits (packByte bits) = bits ++ List.replicate (8 - bits.length) false :=
  bitsBelow_placeBits bits 0 (Nat.le_refl 8) hlen (by decide)

theorem placeBits_append (xs ys : List Bool) (offset : ℕ) (byte : UInt8) :
    placeBits offset (xs ++ ys) byte =
      placeBits (offset - xs.length) ys (placeBits offset xs byte) := by
  induction xs generalizing offset byte with
  | nil => rfl
  | cons bit xs ih =>
      rw [List.cons_append, placeBits, ih, placeBits, List.length_cons, Nat.sub_sub,
        Nat.add_comm 1]

/-- Packing up to the byte boundary and from there on. -/
theorem pack_append {xs : List Bool} (hxs : 8 ∣ xs.length) (ys : List Bool) :
    pack (xs ++ ys) = pack xs ++ pack ys := by
  rw [pack, cut_append (by omega) hxs, List.map_append]
  rfl

theorem pack_of_le {bits : List Bool} (hne : bits ≠ []) (hlen : bits.length ≤ 8) :
    pack bits = [packByte bits] := by
  rw [pack, cut_of_ne_nil (by omega) hne, List.take_of_length_le hlen,
    List.drop_eq_nil_of_le hlen, cut_nil]
  rfl

@[simp] theorem pack_nil : pack [] = [] := by
  rw [pack, cut_nil]
  rfl

theorem length_pack (bits : List Bool) : (pack bits).length = (bits.length + 7) / 8 := by
  rw [pack, List.length_map, length_cut (by omega)]

/-- Reading packed bits gives them back, followed by less than a byte of zeros. -/
theorem bytesBits_pack (bits : List Bool) :
    ∃ padding < 8, bytesBits (pack bits) = bits ++ List.replicate padding false := by
  induction bits using cut_induction (show 0 < 8 by omega) with
  | nil => exact ⟨0, by omega, by rw [pack_nil]; rfl⟩
  | block bits hne ih =>
      rcases ih with ⟨padding, hpadding, hbits⟩
      by_cases hlen : bits.length ≤ 8
      · have hpos := List.length_pos_iff.mpr hne
        refine ⟨8 - bits.length, by omega, ?_⟩
        rw [pack_of_le hne hlen, bytesBits_cons, byteBits_packByte hlen]
        exact List.append_nil _
      · have htake : (bits.take 8).length = 8 := by
          simp only [List.length_take]
          omega
        refine ⟨padding, hpadding, ?_⟩
        calc bytesBits (pack bits)
            = bytesBits (packByte (bits.take 8) :: pack (bits.drop 8)) := by
              rw [pack, cut_of_ne_nil (by omega) hne]
              rfl
          _ = bits.take 8 ++ (bits.drop 8 ++ List.replicate padding false) := by
              rw [bytesBits_cons, byteBits_packByte (by omega), htake, hbits]
              simp
          _ = bits ++ List.replicate padding false := by
              rw [← List.append_assoc, List.take_append_drop]

end LibHuffman.Foundation
