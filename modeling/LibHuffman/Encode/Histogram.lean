/-
# Counting the bytes of a block

`huf_histogram_populate` leaves in an empty histogram the number of times that
every byte occurs, and the least byte that does.
-/

import LibHuffman.Model.Histogram
import LibHuffman.Trees.Forest
import Mathlib.Algebra.BigOperators.Group.Finset.Piecewise

namespace LibHuffman

open Foundation

/-- How often every slot of the histogram occurs as a byte of a block. -/
def byteRates : List UInt8 → List ℕ :=
  List.foldl (fun rates byte => rates.set byte.toNat (rates.getD byte.toNat 0 + 1))
    (List.replicate hufHistogramLen 0)

/-- The least byte of a block, as `countElement` keeps it. -/
def leastByte : List UInt8 → ℕ :=
  List.foldl (fun start byte =>
    if byte.toNat < start ∨ start = sizeMax then byte.toNat else start) sizeMax

/-- A histogram of bytes before anything is counted. -/
def emptyHistogram : HufHistogram where
  frequencies := List.replicate hufHistogramLen 0
  iota := 1
  length := hufHistogramLen
  start := sizeMax

/-- The histogram of a block. -/
def blockHistogram (block : List UInt8) : HufHistogram :=
  { emptyHistogram with frequencies := byteRates block, start := leastByte block }

section

variable {block : List UInt8} {k : ℕ}

theorem byteRates_nil : byteRates [] = List.replicate hufHistogramLen 0 := rfl

/-- Counting one more byte. -/
theorem byteRates_append (seen : List UInt8) (byte : UInt8) :
    byteRates (seen ++ [byte]) =
      (byteRates seen).set byte.toNat ((byteRates seen).getD byte.toNat 0 + 1) := by
  rw [byteRates, List.foldl_append]
  rfl

@[simp] theorem length_byteRates (block : List UInt8) :
    (byteRates block).length = hufHistogramLen := by
  induction block using List.reverseRecOn with
  | nil => exact List.length_replicate ..
  | append_singleton seen byte ih => rw [byteRates_append, List.length_set, ih]

theorem getD_byteRates (block : List UInt8) (k : ℕ) :
    (byteRates block).getD k 0 = block.countP fun byte => byte.toNat = k := by
  induction block using List.reverseRecOn generalizing k with
  | nil =>
      rw [byteRates_nil, List.countP_nil, List.getD_eq_getElem?_getD, List.getElem?_replicate]
      split <;> rfl
  | append_singleton seen byte ih =>
      rw [byteRates_append, List.countP_append, List.countP_singleton, ih byte.toNat,
        List.getD_eq_getElem?_getD, List.getElem?_set, length_byteRates]
      have hlt := byte.toNat_lt
      have hlen : hufHistogramLen = 512 := rfl
      by_cases hbyte : byte.toNat = k
      · rw [if_pos hbyte, if_pos (by omega), decide_eq_true hbyte, if_pos rfl, hbyte]
        rfl
      · rw [if_neg hbyte, decide_eq_false hbyte, if_neg Bool.false_ne_true,
          ← List.getD_eq_getElem?_getD, ih k]
        rfl

theorem leastByte_append (seen : List UInt8) (byte : UInt8) :
    leastByte (seen ++ [byte]) =
      if byte.toNat < leastByte seen ∨ leastByte seen = sizeMax then byte.toNat
      else leastByte seen := by
  rw [leastByte, List.foldl_append]
  rfl

/-- No byte of the block is below the least one. -/
theorem leastByte_le (block : List UInt8) : ∀ byte ∈ block, leastByte block ≤ byte.toNat := by
  induction block using List.reverseRecOn with
  | nil => exact fun byte h => absurd h List.not_mem_nil
  | append_singleton seen byte ih =>
      intro other hother
      rw [leastByte_append]
      have hlt := byte.toNat_lt
      have hlt' := other.toNat_lt
      have hmax : sizeMax = 2 ^ 64 - 1 := rfl
      rcases List.mem_append.mp hother with hother | hother
      · have := ih other hother
        split <;> omega
      · rw [List.mem_singleton.mp hother]
        split <;> omega

theorem byteRates_below_least (hk : k < leastByte block) : (byteRates block).getD k 0 = 0 := by
  rw [getD_byteRates, List.countP_eq_zero]
  intro byte hmem hbyte
  have hle := leastByte_le block byte hmem
  rw [decide_eq_true_iff] at hbyte
  omega

/-- The bytes that are counted are those of the block. -/
theorem mem_counted_byteRates {byte : UInt8} :
    byte.toNat ∈ Forest.counted (byteRates block) ↔ byte ∈ block := by
  rw [Forest.mem_counted, getD_byteRates, ne_eq, List.countP_eq_zero]
  apply Iff.intro
  · intro h
    rcases h with ⟨-, hcount⟩
    by_contra hmem
    refine hcount fun other hother heq => hmem ?_
    rw [decide_eq_true_iff, UInt8.toNat_inj] at heq
    exact heq ▸ hother
  · intro hmem
    exact ⟨byte.toNat_lt, fun hcount => hcount byte hmem (decide_eq_true rfl)⟩

theorem counted_byteRates (block : List UInt8) :
    Forest.counted (byteRates block) = block.toFinset.image UInt8.toNat := by
  ext k
  rw [Finset.mem_image]
  apply Iff.intro
  · intro hk
    have hlt := (Forest.mem_counted.mp hk).1
    have hbyte : (UInt8.ofNat k).toNat = k := by
      rw [UInt8.toNat_ofNat']
      exact Nat.mod_eq_of_lt hlt
    refine ⟨UInt8.ofNat k, ?_, hbyte⟩
    rw [List.mem_toFinset, ← mem_counted_byteRates, hbyte]
    exact hk
  · intro h
    rcases h with ⟨byte, hbyte, rfl⟩
    exact mem_counted_byteRates.mpr (List.mem_toFinset.mp hbyte)

theorem toNat_injective : Function.Injective UInt8.toNat := fun _ _ h => UInt8.toNat_inj.mp h

/-- The number of distinct bytes of a block. -/
theorem card_counted_byteRates (block : List UInt8) :
    (Forest.counted (byteRates block)).card = block.toFinset.card := by
  rw [counted_byteRates, Finset.card_image_of_injective _ toNat_injective]

/-- All the rates together count the whole block. -/
theorem weight_byteRates (block : List UInt8) :
    (Forest.seed (byteRates block)).pool.weight = block.length := by
  have hsum : ∑ k ∈ Finset.range hufAsciiCount,
      (block.countP fun byte => byte.toNat = k) = block.length := by
    induction block with
    | nil => simp only [List.countP_nil, Finset.sum_const_zero, List.length_nil]
    | cons byte block ih =>
        have hmem : byte.toNat ∈ Finset.range hufAsciiCount := Finset.mem_range.mpr byte.toNat_lt
        simp only [List.countP_cons, decide_eq_true_eq, Finset.sum_add_distrib, ih,
          Finset.sum_ite_eq, hmem, if_true, List.length_cons]
  rw [Forest.weight_pool, Forest.live, Finset.sum_filter_ne_zero, ← hsum]
  exact Finset.sum_congr rfl fun k _ => getD_byteRates block k

/-- The rates of a block that is not empty are those of a tree. -/
theorem countable_byteRates (hne : block ≠ []) (hlen : block.length < 2 ^ 64) :
    Forest.Countable (byteRates block) := by
  constructor
  case length => exact length_byteRates block
  case above =>
    intro k hk
    rw [getD_byteRates, List.countP_eq_zero]
    intro byte _ hbyte
    have hlt : byte.toNat < hufAsciiCount := byte.toNat_lt
    rw [decide_eq_true_iff] at hbyte
    omega
  case live =>
    obtain ⟨byte, hbyte⟩ := List.exists_mem_of_ne_nil block hne
    exact ⟨byte.toNat, mem_counted_byteRates.mpr hbyte⟩
  case total => rwa [weight_byteRates]

end

/-! ## The loop -/

section

variable {block : List UInt8}

/-- One more byte of a block. -/
theorem countElement_eq {seen : List UInt8} (byte : UInt8) (hlen : seen.length + 1 < 2 ^ 64) :
    countElement byte.toNat (blockHistogram seen) =
      .ok (.ok (), blockHistogram (seen ++ [byte])) := by
  have hlt : byte.toNat < (byteRates seen).length := by
    have hbyte := byte.toNat_lt
    have hhistogram : hufHistogramLen = 512 := rfl
    rw [length_byteRates]
    omega
  have hcount : (byteRates seen).getD byte.toNat 0 ≤ seen.length := by
    rw [getD_byteRates]
    exact List.countP_le_length
  have hload : load (blockHistogram seen).frequencies byte.toNat =
      .ok ((byteRates seen).getD byte.toNat 0) := load_rate hlt
  have hstore : store (blockHistogram seen).frequencies byte.toNat
      (((byteRates seen).getD byte.toNat 0 + 1) % 2 ^ 64) = .ok (byteRates (seen ++ [byte])) := by
    rw [byteRates_append, Nat.mod_eq_of_lt (by omega)]
    exact store_of_lt hlt
  rw [countElement, Routine.get_bind_apply, hload, Routine.demand_ok_bind_apply, hstore,
    Routine.demand_ok_bind_apply, Routine.modify_apply]
  simp only [blockHistogram, leastByte_append]
  congr

/-- The condition of the loop of `huf_histogram_populate`. -/
def populateCond (buf : List UInt8) : CRoutine HufHistogram Bool := do
  return decide ((← Routine.get).iota ≤ buf.length)

/-- The body of the loop of `huf_histogram_populate`. -/
def populateBody (buf : List UInt8) : CRoutine HufHistogram (LoopStep (List UInt8)) := do
  let iota := (← Routine.get).iota
  let element ← Routine.demand (memcpy (List.replicate 8 0) 0 (buf.take iota))
  countElement (leNat element)
  return .next (buf.drop iota)

/-- Counting a block in an empty histogram. -/
theorem hufHistogramPopulate_eq (hlen : block.length < 2 ^ 64) :
    hufHistogramPopulate block emptyHistogram = .ok (.ok (), blockHistogram block) := by
  have hstart : emptyHistogram = blockHistogram [] := by
    rw [blockHistogram, byteRates_nil]
    rfl
  have hloop : Routine.whileLoop .endless populateCond populateBody (block.length + 1) block
      (blockHistogram []) = .ok (.ok [], blockHistogram block) := by
    refine Routine.whileLoop_rule
      (fun (seen : List UInt8) n buf self =>
        block = seen ++ buf ∧ n = buf.length ∧ self = blockHistogram seen)
      (fun _ outcome => outcome = .ok (.ok [], blockHistogram block)) ?_
      (Nat.lt_succ_self _) ⟨rfl, rfl, rfl⟩
    rintro seen n buf self rest ⟨hblock, rfl, rfl⟩ hrest
    cases buf with
    | nil =>
        have hcond : populateCond [] (blockHistogram seen) =
            .ok (.ok false, blockHistogram seen) := rfl
        simp [Routine.iteration_of_stop hcond, hblock]
    | cons byte buf =>
        have hcond : populateCond (byte :: buf) (blockHistogram seen) =
            .ok (.ok true, blockHistogram seen) := by
          show Except.ok (Except.ok (decide (1 ≤ buf.length + 1)), _) = _
          rw [decide_eq_true (Nat.le_add_left 1 _)]
        have hbody : populateBody (byte :: buf) (blockHistogram seen) =
            .ok (.ok (.next buf), blockHistogram (seen ++ [byte])) := by
          have hseen : seen.length + 1 < 2 ^ 64 := by
            simp only [hblock, List.length_append, List.length_cons] at hlen
            omega
          have hcount := countElement_eq byte hseen
          have helement : leNat (byte :: List.replicate 7 0) = byte.toNat := by
            simp [leNat]
          rw [← helement] at hcount
          exact Routine.bind_of_ok hcount
        rw [Routine.iteration_of_next hcond hbody]
        exact hrest (seen ++ [byte]) buf.length (Nat.lt_succ_self _) buf _
          ⟨by rw [hblock, List.append_assoc, List.singleton_append], rfl, rfl⟩
  rw [hstart]
  exact Routine.bind_of_ok hloop

end

end LibHuffman
