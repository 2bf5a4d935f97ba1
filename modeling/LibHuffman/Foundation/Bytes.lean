/-
# Little-endian words and cutting into blocks

A word in memory is a list of bytes, least significant byte first. `leBytes`
stores a number in a given count of bytes and `leNat` reads it back; two-byte
words are the case the tree format uses. `cut` splits a list into consecutive
blocks of one length, of which only the last may be shorter.
-/

import Mathlib.Tactic.Common
import Mathlib.Algebra.Group.Nat.Defs
import Mathlib.Data.List.Basic

namespace LibHuffman.Foundation

/-! ## Numbers -/

/-- The `count` low bytes of a number, least significant first. -/
def leBytes : ℕ → ℕ → List UInt8
  | 0, _ => []
  | count + 1, value => UInt8.ofNat value :: leBytes count (value / 256)

/-- The number that bytes denote, least significant first. -/
def leNat : List UInt8 → ℕ
  | [] => 0
  | byte :: bytes => byte.toNat + 256 * leNat bytes

@[simp] theorem length_leBytes (count value : ℕ) : (leBytes count value).length = count := by
  induction count generalizing value with
  | zero => rfl
  | succ count ih => rw [leBytes, List.length_cons, ih]

theorem leNat_leBytes {count value : ℕ} (h : value < 256 ^ count) :
    leNat (leBytes count value) = value := by
  induction count generalizing value with
  | zero =>
      rw [Nat.pow_zero] at h
      simp only [leBytes, leNat]
      omega
  | succ count ih =>
      have hdiv : value / 256 < 256 ^ count := by
        rw [Nat.pow_succ] at h
        exact Nat.div_lt_of_lt_mul (by omega)
      have hbyte : (UInt8.ofNat value).toNat = value % 256 := by simp
      rw [leBytes, leNat, ih hdiv, hbyte]
      omega

theorem leBytes_leNat (bytes : List UInt8) : leBytes bytes.length (leNat bytes) = bytes := by
  induction bytes with
  | nil => rfl
  | cons byte bytes ih =>
      have hlt : byte.toNat < 256 := byte.toNat_lt
      have hlow : UInt8.ofNat (byte.toNat + 256 * leNat bytes) = byte := by
        apply UInt8.toNat_inj.mp
        rw [UInt8.toNat_ofNat']
        omega
      have hhigh : (byte.toNat + 256 * leNat bytes) / 256 = leNat bytes := by omega
      simp [leNat, leBytes, hlow, hhigh, ih]

theorem leNat_lt (bytes : List UInt8) : leNat bytes < 256 ^ bytes.length := by
  induction bytes with
  | nil => exact Nat.one_pos
  | cons byte bytes ih =>
      have hlt : byte.toNat < 256 := byte.toNat_lt
      simp only [leNat, List.length_cons, Nat.pow_succ]
      omega

/-! ## Two-byte words -/

/-- The two bytes of a 16-bit word. -/
def wordBytes (word : Int16) : List UInt8 := leBytes 2 word.toUInt16.toNat

/-- The 16-bit word that bytes denote. -/
def bytesWord (bytes : List UInt8) : Int16 := (UInt16.ofNat (leNat bytes)).toInt16

/-- The words stored one after the other. -/
def wordsBytes (words : List Int16) : List UInt8 := words.flatMap wordBytes

/-- Read `count` words from the front of the bytes. -/
def bytesWords : ℕ → List UInt8 → List Int16
  | 0, _ => []
  | count + 1, bytes => bytesWord (bytes.take 2) :: bytesWords count (bytes.drop 2)

@[simp] theorem length_wordBytes (word : Int16) : (wordBytes word).length = 2 :=
  length_leBytes _ _

theorem bytesWord_wordBytes (word : Int16) : bytesWord (wordBytes word) = word := by
  have hlt : word.toUInt16.toNat < 256 ^ 2 := word.toUInt16.toNat_lt
  rw [bytesWord, wordBytes, leNat_leBytes hlt, UInt16.ofNat_toNat]
  exact Int16.toInt16_toUInt16 word

theorem wordBytes_bytesWord {bytes : List UInt8} (h : bytes.length = 2) :
    wordBytes (bytesWord bytes) = bytes := by
  have hlt : leNat bytes < 2 ^ 16 := by
    have := leNat_lt bytes
    rw [h] at this
    omega
  have hword : (bytesWord bytes).toUInt16.toNat = leNat bytes := by
    rw [bytesWord, UInt16.toUInt16_toInt16, UInt16.toNat_ofNat']
    omega
  rw [wordBytes, hword, ← h, leBytes_leNat]

@[simp] theorem length_wordsBytes (words : List Int16) :
    (wordsBytes words).length = 2 * words.length := by
  induction words with
  | nil => rfl
  | cons word words ih =>
      rw [wordsBytes, List.flatMap_cons, List.length_append, ← wordsBytes, ih,
        length_wordBytes, List.length_cons]
      omega

@[simp] theorem length_bytesWords (count : ℕ) (bytes : List UInt8) :
    (bytesWords count bytes).length = count := by
  induction count generalizing bytes with
  | zero => rfl
  | succ count ih => rw [bytesWords, List.length_cons, ih]

theorem bytesWords_wordsBytes (words : List Int16) :
    bytesWords words.length (wordsBytes words) = words := by
  induction words with
  | nil => rfl
  | cons word words ih =>
      have hsplit : wordsBytes (word :: words) = wordBytes word ++ wordsBytes words := rfl
      have htake : (wordsBytes (word :: words)).take 2 = wordBytes word := by
        rw [hsplit]
        exact List.take_left' (length_wordBytes word)
      have hdrop : (wordsBytes (word :: words)).drop 2 = wordsBytes words := by
        rw [hsplit]
        exact List.drop_left' (length_wordBytes word)
      simp [bytesWords, htake, hdrop, bytesWord_wordBytes, ih]

theorem wordsBytes_bytesWords {count : ℕ} {bytes : List UInt8}
    (h : bytes.length = 2 * count) : wordsBytes (bytesWords count bytes) = bytes := by
  induction count generalizing bytes with
  | zero =>
      rw [List.length_eq_zero_iff.mp (by omega : bytes.length = 0)]
      rfl
  | succ count ih =>
      have htake : (bytes.take 2).length = 2 := by
        simp only [List.length_take]
        omega
      have hdrop : (bytes.drop 2).length = 2 * count := by
        simp only [List.length_drop]
        omega
      calc wordsBytes (bytesWords (count + 1) bytes)
          = wordBytes (bytesWord (bytes.take 2)) ++ wordsBytes (bytesWords count (bytes.drop 2)) :=
            rfl
        _ = bytes.take 2 ++ bytes.drop 2 := by rw [wordBytes_bytesWord htake, ih hdrop]
        _ = bytes := List.take_append_drop 2 bytes

/-! ## Blocks -/

section Cut

variable {α : Type}

/-- Consecutive blocks of `size` elements; the last one takes what is left. -/
def cut (size : ℕ) (xs : List α) : List (List α) :=
  if _ : size = 0 ∨ xs = [] then []
  else xs.take size :: cut size (xs.drop size)
termination_by xs.length
decreasing_by
  have := List.length_pos_iff.mpr (not_or.mp ‹_›).2
  have := (not_or.mp ‹¬(size = 0 ∨ xs = [])›).1
  simp only [List.length_drop]
  omega

@[simp] theorem cut_nil (size : ℕ) : cut size ([] : List α) = [] := by
  rw [cut, dif_pos (Or.inr rfl)]

theorem cut_of_ne_nil {size : ℕ} (hsize : 0 < size) {xs : List α} (hxs : xs ≠ []) :
    cut size xs = xs.take size :: cut size (xs.drop size) := by
  rw [cut, dif_neg (by simp only [not_or]; exact ⟨by omega, hxs⟩)]

/-- Reason about the blocks of a list from the front: the list is empty, or a
first block is taken off. -/
theorem cut_induction {size : ℕ} (hsize : 0 < size) {P : List α → Prop} (nil : P [])
    (block : ∀ xs, xs ≠ [] → P (xs.drop size) → P xs) (xs : List α) : P xs := by
  induction hn : xs.length using Nat.strongRecOn generalizing xs with
  | _ n ih =>
      by_cases hxs : xs = []
      · exact hxs ▸ nil
      · have hpos := List.length_pos_iff.mpr hxs
        refine block xs hxs (ih (xs.drop size).length ?_ _ rfl)
        simp only [List.length_drop]
        omega

/-- The number of blocks. -/
theorem length_cut {size : ℕ} (hsize : 0 < size) (xs : List α) :
    (cut size xs).length = (xs.length + (size - 1)) / size := by
  induction xs using cut_induction hsize with
  | nil =>
      rw [cut_nil]
      exact (Nat.div_eq_of_lt (by simp; omega)).symm
  | block xs hne ih =>
      have hpos := List.length_pos_iff.mpr hne
      rw [cut_of_ne_nil hsize hne, List.length_cons, ih, List.length_drop]
      rcases Nat.lt_or_ge xs.length size with hlt | hle
      · rw [Nat.sub_eq_zero_of_le (Nat.le_of_lt hlt), Nat.zero_add, Nat.div_eq_of_lt (by omega),
          show xs.length + (size - 1) = xs.length - 1 + size by omega, Nat.add_div_right _ hsize,
          Nat.div_eq_of_lt (by omega)]
      · rw [show xs.length + (size - 1) = xs.length - size + (size - 1) + size by omega,
          Nat.add_div_right _ hsize]

theorem flatten_cut {size : ℕ} (hsize : 0 < size) (xs : List α) : (cut size xs).flatten = xs := by
  induction xs using cut_induction hsize with
  | nil => rw [cut_nil]; rfl
  | block xs hxs ih => rw [cut_of_ne_nil hsize hxs, List.flatten_cons, ih, List.take_append_drop]

theorem cut_append {size : ℕ} (hsize : 0 < size) {xs : List α} (hxs : size ∣ xs.length)
    (ys : List α) : cut size (xs ++ ys) = cut size xs ++ cut size ys := by
  induction xs using cut_induction hsize with
  | nil => rw [cut_nil, List.nil_append, List.nil_append]
  | block xs hne ih =>
      have hpos := List.length_pos_iff.mpr hne
      have hle : size ≤ xs.length := Nat.le_of_dvd hpos hxs
      have hdvd : size ∣ (xs.drop size).length := by
        rw [List.length_drop]
        exact Nat.dvd_sub hxs (Nat.dvd_refl size)
      rw [cut_of_ne_nil hsize hne, cut_of_ne_nil hsize (List.append_ne_nil_of_left_ne_nil hne ys),
        List.take_append_of_le_length hle, List.drop_append_of_le_length hle, ih hdvd,
        List.cons_append]

theorem ne_nil_of_mem_cut {size : ℕ} (hsize : 0 < size) {xs block : List α}
    (h : block ∈ cut size xs) : block ≠ [] := by
  induction xs using cut_induction hsize with
  | nil => rw [cut_nil] at h; cases h
  | block xs hne ih =>
      rw [cut_of_ne_nil hsize hne, List.mem_cons] at h
      rcases h with rfl | h
      · exact fun hnil => (List.take_eq_nil_iff.mp hnil).elim (by omega) hne
      · exact ih h

theorem length_le_of_mem_cut {size : ℕ} (hsize : 0 < size) {xs block : List α}
    (h : block ∈ cut size xs) : block.length ≤ xs.length := by
  induction xs using cut_induction hsize with
  | nil => rw [cut_nil] at h; cases h
  | block xs hne ih =>
      rw [cut_of_ne_nil hsize hne, List.mem_cons] at h
      rcases h with rfl | h
      · exact List.length_take_le' size xs
      · exact Nat.le_trans (ih h) (by simp only [List.length_drop]; omega)

/-- The longest front that is whole blocks. -/
def wholePart (size : ℕ) (xs : List α) : List α := xs.take (xs.length / size * size)

/-- What is left behind the whole blocks. -/
def lastPart (size : ℕ) (xs : List α) : List α := xs.drop (xs.length / size * size)

theorem wholePart_append_lastPart (size : ℕ) (xs : List α) :
    wholePart size xs ++ lastPart size xs = xs := List.take_append_drop _ xs

theorem length_wholePart (size : ℕ) (xs : List α) :
    (wholePart size xs).length = xs.length / size * size := by
  rw [wholePart, List.length_take, Nat.min_eq_left (Nat.div_mul_le_self _ _)]

theorem dvd_length_wholePart (size : ℕ) (xs : List α) : size ∣ (wholePart size xs).length := by
  rw [length_wholePart]
  exact Nat.dvd_mul_left _ _

theorem length_lastPart (size : ℕ) (xs : List α) :
    (lastPart size xs).length = xs.length % size := by
  have hdiv := Nat.div_add_mod' xs.length size
  simp only [lastPart, List.length_drop]
  omega

theorem wholePart_of_lt {size : ℕ} {xs : List α} (h : xs.length < size) :
    wholePart size xs = [] := by
  simp [wholePart, Nat.div_eq_of_lt h]

theorem lastPart_of_lt {size : ℕ} {xs : List α} (h : xs.length < size) : lastPart size xs = xs := by
  simp [lastPart, Nat.div_eq_of_lt h]

theorem length_div_append {size : ℕ} (hsize : 0 < size) {front : List α}
    (hfront : size ∣ front.length) (xs : List α) :
    (front ++ xs).length / size * size = front.length + xs.length / size * size := by
  rcases hfront with ⟨count, hcount⟩
  simp [hcount, Nat.mul_add_div hsize, Nat.add_mul, Nat.mul_comm count]

/-- Whole blocks in front stay whole. -/
theorem wholePart_append {size : ℕ} (hsize : 0 < size) {front : List α}
    (hfront : size ∣ front.length) (xs : List α) :
    wholePart size (front ++ xs) = front ++ wholePart size xs := by
  rw [wholePart, length_div_append hsize hfront, List.take_length_add_append, wholePart]

theorem lastPart_append {size : ℕ} (hsize : 0 < size) {front : List α}
    (hfront : size ∣ front.length) (xs : List α) :
    lastPart size (front ++ xs) = lastPart size xs := by
  rw [lastPart, length_div_append hsize hfront, List.drop_length_add_append, lastPart]

end Cut

end LibHuffman.Foundation
