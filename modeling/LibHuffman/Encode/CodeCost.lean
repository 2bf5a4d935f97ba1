/-
# The cost of the code table

Huffman's construction leaves an optimal tree below the root, but the root has this tree
as its only child. So every code begins with a bit that tells nothing apart, and a block
takes one bit more for each of its bytes than a prefix-free code needs.
-/

import LibHuffman.Encode.CodeTable
import LibHuffman.Encode.Payload
import LibHuffman.Foundation.PrefixCode
import LibHuffman.Trees.Greedy

namespace LibHuffman

open Foundation Allocating

/-! ## Bits of a block -/

/-- The length of the code that a mapping has stored for a byte. -/
def HufSymbolMapping.codeLength (self : HufSymbolMapping) (byte : UInt8) : ℕ :=
  match self.symbols[byte.toNat]? with
  | some (some element) => element.length
  | _ => 0

/-- The number of code bits of a block, byte after byte. -/
def HufSymbolMapping.codeBits (self : HufSymbolMapping) (block : List UInt8) : ℕ :=
  (block.map self.codeLength).sum

/-- The numbers of bits that a block takes with a prefix-free code for its bytes. -/
def prefixFreeBits (block : List UInt8) : Set ℕ :=
  {n | ∃ code : UInt8 → List Bool, PrefixFree block.toFinset code ∧
    (block.map fun byte => (code byte).length).sum = n}

/-- No prefix-free code for the bytes of a block takes fewer bits. -/
def OptimalBits (block : List UInt8) (bits : ℕ) : Prop := ∀ n ∈ prefixFreeBits block, bits ≤ n

section

variable {block : List UInt8} {m : HufSymbolMapping}

/-- The code bits of a block are those of its payload. -/
theorem CodedBelow.codeBits_eq (h : CodedBelow (byteRates block) hufAsciiCount m) :
    m.codeBits block = (payloadBits (byteRates block) block).length := by
  rw [HufSymbolMapping.codeBits, payloadBits, List.length_flatMap]
  apply congrArg
  apply List.map_congr_left
  intro byte hbyte
  rw [HufSymbolMapping.codeLength, h.coded _ byte.toNat_lt,
    if_pos (mem_counted_byteRates.mpr hbyte), codeElement]

/-- A sum over the bytes of a block, weighed with their rates. -/
theorem sum_map_toNat (block : List UInt8) (f : ℕ → ℕ) :
    (block.map fun byte => f byte.toNat).sum =
      ∑ k ∈ Forest.counted (byteRates block), (byteRates block).getD k 0 * f k := by
  rw [Finset.sum_list_map_count, counted_byteRates, Finset.sum_image toNat_injective.injOn]
  apply Finset.sum_congr rfl
  intro byte _
  rw [getD_byteRates, smul_eq_mul, List.count]
  congr 2
  ext other
  rw [Bool.eq_iff_iff, beq_iff_eq, decide_eq_true_iff, UInt8.toNat_inj]

end

/-! ## The first bit -/

section

variable {rates : List ℕ} {k : ℕ}

/-- Every code begins with the step from the root to its only child. -/
theorem Forest.Countable.hufCode_eq (h : Forest.Countable rates)
    (hbyte : k ∈ Forest.counted rates) :
    hufCode rates k = false :: (hufCode rates k).tail ∧
      Path (hufTree rates).left (hufCode rates k).tail k := by
  have hpath := h.path_hufCode hbyte
  have hne := h.hufCode_ne_nil hbyte
  have hright : (hufTree rates).right = .nil := h.paired.2
  generalize hufCode rates k = code at hpath hne
  generalize hufTree rates = tree at hpath hright
  cases hpath with
  | leaf => exact absurd rfl hne
  | left hpath => exact ⟨rfl, hpath⟩
  | @right _ _ _ r _ hpath =>
      obtain rfl : r = .nil := hright
      cases hpath

/-- Without the first bit the codes are still prefix-free. -/
theorem Forest.Countable.prefixFree_tail (h : Forest.Countable rates) :
    PrefixFree (Forest.counted rates) fun k => (hufCode rates k).tail :=
  prefixFree_of_paths fun _ hk => (h.hufCode_eq hk).2

/-- Without the first bit no prefix-free code costs less. -/
theorem Forest.Countable.codeCost_le (h : Forest.Countable rates)
    (htotal : (Forest.seed rates).pool.weight < 2 ^ 63) {code : ℕ → List Bool}
    (hcode : PrefixFree (Forest.counted rates) code) :
    codeCost (fun k => rates.getD k 0) (Forest.counted rates) (fun k => (hufCode rates k).tail) ≤
      codeCost (fun k => rates.getD k 0) (Forest.counted rates) code := by
  have hbuilds := h.builds htotal
  have hnodup : (values (hufTree rates).left).Nodup := by
    have hvalues := h.values_nodup
    generalize hufTree rates = tree at hvalues
    cases tree with
    | nil => exact List.nodup_nil
    | node a l r =>
        rw [values, List.nodup_cons, List.nodup_append] at hvalues
        exact hvalues.2.1
  rw [← cost_eq_codeCost hnodup hbuilds.leaves_ofLeaves fun k hk => (h.hufCode_eq hk).2]
  exact hbuilds.cost_le_codeCost hcode

end

section

variable {block : List UInt8}

/-- The number of bits that a block takes without the first bit of each code. -/
def shortBits (block : List UInt8) : ℕ :=
  (block.map fun byte => (hufCode (byteRates block) byte.toNat).tail.length).sum

theorem shortBits_mem (hne : block ≠ []) (hlen : block.length < 2 ^ 64) :
    shortBits block ∈ prefixFreeBits block := by
  refine ⟨fun byte => (hufCode (byteRates block) byte.toNat).tail, ?_, rfl⟩
  intro a ha b hb hpre
  apply toNat_injective
  exact (countable_byteRates hne hlen).prefixFree_tail _
    (mem_counted_byteRates.mpr (List.mem_toFinset.mp ha)) _
    (mem_counted_byteRates.mpr (List.mem_toFinset.mp hb)) hpre

/-- As long as no rate is negative as a signed number, no prefix-free code takes less. -/
theorem shortBits_le (hne : block ≠ []) (hlen : block.length < 2 ^ 63) {n : ℕ}
    (hn : n ∈ prefixFreeBits block) : shortBits block ≤ n := by
  rcases hn with ⟨code, hcode, rfl⟩
  have hrates := countable_byteRates hne (by omega : block.length < 2 ^ 64)
  have hcode' : PrefixFree (Forest.counted (byteRates block)) fun k => code (UInt8.ofNat k) := by
    rw [counted_byteRates]
    intro a ha b hb hpre
    rcases Finset.mem_image.mp ha with ⟨first, hfirst, rfl⟩
    rcases Finset.mem_image.mp hb with ⟨second, hsecond, rfl⟩
    simp only [UInt8.ofNat_toNat] at hpre
    rw [hcode first hfirst second hsecond hpre]
  have hle := hrates.codeCost_le (by rwa [weight_byteRates]) hcode'
  rw [codeCost, codeCost, ← sum_map_toNat block fun k => (hufCode (byteRates block) k).tail.length,
    ← sum_map_toNat block fun k => (code (UInt8.ofNat k)).length] at hle
  simp only [UInt8.ofNat_toNat] at hle
  exact hle

/-- Every byte of a block takes one bit more. -/
theorem length_payloadBits (hne : block ≠ []) (hlen : block.length < 2 ^ 64) :
    (payloadBits (byteRates block) block).length = shortBits block + block.length := by
  have hrates := countable_byteRates hne hlen
  have hlength : ∀ byte ∈ block, (hufCode (byteRates block) byte.toNat).length =
      (hufCode (byteRates block) byte.toNat).tail.length + 1 := by
    intro byte hbyte
    exact congrArg List.length (hrates.hufCode_eq (mem_counted_byteRates.mpr hbyte)).1
  rw [payloadBits, List.length_flatMap, List.map_congr_left hlength, List.sum_map_add, shortBits]
  simp

end

/-! ## The cost -/

section

variable {ρ ω : Type} {e : EncodeState ρ ω} {block : List UInt8} {s : EncodeRun ρ ω}

/-- The codes of the table take one bit more for every byte of the block than a
prefix-free code, and as long as no rate is negative as a signed number, that many more
than the best one. -/
theorem blockTable_not_optimal (h : Counted block e) (hrun : blockTable e.run = .ok (.ok (), s)) :
    ∃ e' : EncodeState ρ ω, s = e'.run ∧ ¬ OptimalBits block (e'.mapping.codeBits block) ∧
      ∃ n ∈ prefixFreeBits block, e'.mapping.codeBits block = n + block.length ∧
        (block.length < 2 ^ 63 → IsLeast (prefixFreeBits block) n) := by
  obtain ⟨e', hs, hcoded, -⟩ := h.table_of_run hrun
  have hmem := shortBits_mem h.ne h.lt
  have hbits : e'.mapping.codeBits block = shortBits block + block.length := by
    rw [hcoded.codeBits_eq, length_payloadBits h.ne h.lt]
  refine ⟨e', hs, fun hoptimal => ?_, shortBits block, hmem, hbits, fun hlen => ⟨hmem, ?_⟩⟩
  · have hle := hoptimal _ hmem
    have hpos := List.length_pos_iff.mpr h.ne
    omega
  · exact fun n hn => shortBits_le h.ne hlen hn

end

/-- Two distinct bytes take four bits, where two would do. -/
theorem blockTable_four_bits : ∃ e' : EncodeState MemStream MemStream,
    blockTable (countedEncoder [1, 2]).run = .ok (.ok (), e'.run) ∧
      e'.mapping.codeBits [1, 2] = 4 ∧ 2 ∈ prefixFreeBits [1, 2] ∧
      ¬ OptimalBits [1, 2] (e'.mapping.codeBits [1, 2]) := by
  have h : Counted [1, 2] (countedEncoder [1, 2]) :=
    counted_countedEncoder (by decide) (by decide)
  obtain ⟨s, hrun⟩ := h.succeeds (by decide) List.not_mem_nil
  obtain ⟨e', rfl, hcoded, -⟩ := h.table_of_run hrun
  have hmem : 2 ∈ prefixFreeBits [1, 2] := ⟨fun byte => [byte = 2], by decide, rfl⟩
  have hshort : shortBits [1, 2] = 2 := by
    apply Nat.le_antisymm (shortBits_le h.ne (by decide) hmem)
    rcases shortBits_mem h.ne h.lt with ⟨code, hcode, hsum⟩
    have hfirst : code 1 ≠ [] := fun hnil =>
      absurd (hcode 1 (by decide) 2 (by decide) (hnil ▸ List.nil_prefix)) (by decide)
    have hsecond : code 2 ≠ [] := fun hnil =>
      absurd (hcode 2 (by decide) 1 (by decide) (hnil ▸ List.nil_prefix)) (by decide)
    rw [← hsum, List.map_cons, List.map_cons, List.map_nil, List.sum_cons, List.sum_cons,
      List.sum_nil]
    exact Nat.add_le_add (List.length_pos_iff.mpr hfirst) (List.length_pos_iff.mpr hsecond)
  have hbits : e'.mapping.codeBits [1, 2] = 4 := by
    rw [hcoded.codeBits_eq, length_payloadBits h.ne h.lt, hshort]
    rfl
  refine ⟨e', hrun, hbits, hmem, fun hoptimal => ?_⟩
  have hle := hoptimal 2 hmem
  omega

/-- The construction for two distinct bytes succeeds, and wastes three bits. -/
theorem blockTable_not_optimal_two : ∃ e' : EncodeState MemStream MemStream,
    blockTable (countedEncoder [1, 2, 2]).run = .ok (.ok (), e'.run) ∧
      ¬ OptimalBits [1, 2, 2] (e'.mapping.codeBits [1, 2, 2]) := by
  have h : Counted [1, 2, 2] (countedEncoder [1, 2, 2]) :=
    counted_countedEncoder (by decide) (by decide)
  obtain ⟨s, hrun⟩ := h.succeeds (by decide) List.not_mem_nil
  obtain ⟨e', rfl, hnot, -⟩ := blockTable_not_optimal h hrun
  exact ⟨e', hrun, hnot⟩

end LibHuffman
