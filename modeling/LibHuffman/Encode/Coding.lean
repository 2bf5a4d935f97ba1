/-
# The code table

`__huf_create_char_coding` enters the code of every byte of the block in the symbol
mapping, from the last bit to the first, and leaves the other slots empty.
-/

import LibHuffman.Encode.State

namespace LibHuffman

open Foundation

variable {ρ ω : Type}

/-- The element of a byte: the characters of its code, from the last bit to the first. -/
def codeElement (rates : List ℕ) (byte : ℕ) : HufSymbolMappingElement where
  length := (hufCode rates byte).length
  coding := (hufCode rates byte).reverse.map bitChar ++ [0]

/-- The first slots of a mapping hold the codes of the bytes that were counted. -/
structure CodedBelow (rates : List ℕ) (bound : ℕ) (m : HufSymbolMapping) : Prop where
  length : m.length = hufAsciiCount
  length_symbols : m.symbols.length = hufAsciiCount
  coded : ∀ byte < bound, m.symbols[byte]? =
    some (if byte ∈ Forest.counted rates then some (codeElement rates byte) else none)
  empty : ∀ byte, bound ≤ byte → byte < hufAsciiCount → m.symbols[byte]? = some none

/-! ## The symbol mapping -/

section

variable {m : HufSymbolMapping} {position : ℕ}

theorem requirePosition_eq (h : position < m.length) :
    requirePosition position m = .ok (.ok (), m) := by
  rw [requirePosition, Routine.get_bind_apply, sizeSub_of_le (by omega), if_neg (by omega)]
  rfl

theorem hufSymbolMappingInsert_eq (h : position < m.length)
    (hlen : m.symbols.length = m.length) (element : HufSymbolMappingElement) :
    hufSymbolMappingInsert position element m =
      .ok (.ok (), { m with symbols := m.symbols.set position (some element) }) := by
  have hlt : position < m.symbols.length := hlen ▸ h
  rw [hufSymbolMappingInsert, Routine.bind_of_ok (requirePosition_eq h), Routine.get_bind_apply,
    load_of_getElem? (List.getElem?_eq_getElem hlt), Routine.demand_ok_bind_apply,
    Routine.get_bind_apply, store_of_lt hlt, Routine.demand_ok_bind_apply, Routine.modify_apply]

theorem hufSymbolMappingGet_eq {element : Option HufSymbolMappingElement} (h : position < m.length)
    (hget : m.symbols[position]? = some element) :
    hufSymbolMappingGet position m = .ok (.ok element, m) := by
  rw [hufSymbolMappingGet, Routine.bind_of_ok (requirePosition_eq h), Routine.get_bind_apply,
    load_of_getElem? hget]
  rfl

theorem codedBelow_emptyMapping (rates : List ℕ) : CodedBelow rates 0 emptyMapping where
  length := rfl
  length_symbols := List.length_replicate ..
  coded _ h := absurd h (Nat.not_lt_zero _)
  empty byte _ hbyte := by
    show (List.replicate hufAsciiCount none)[byte]? = some none
    rw [List.getElem?_replicate, if_pos hbyte]

/-- A slot of a byte that was not counted stays empty. -/
theorem CodedBelow.skip {rates : List ℕ} (h : CodedBelow rates position m)
    (hposition : position < hufAsciiCount) (hmem : position ∉ Forest.counted rates) :
    CodedBelow rates (position + 1) m where
  length := h.length
  length_symbols := h.length_symbols
  coded byte hbyte := by
    rcases Nat.lt_succ_iff_lt_or_eq.mp hbyte with hbyte | rfl
    · exact h.coded byte hbyte
    · rw [h.empty byte (Nat.le_refl _) hposition, if_neg hmem]
  empty byte hle := h.empty byte (by omega)

/-- The slot of a byte that was counted gets its code. -/
theorem CodedBelow.insert {rates : List ℕ} (h : CodedBelow rates position m)
    (hposition : position < hufAsciiCount) (hmem : position ∈ Forest.counted rates) :
    CodedBelow rates (position + 1)
      { m with symbols := m.symbols.set position (some (codeElement rates position)) } where
  length := h.length
  length_symbols := (List.length_set ..).trans h.length_symbols
  coded byte hbyte := by
    show (m.symbols.set position _)[byte]? = _
    rcases Nat.lt_succ_iff_lt_or_eq.mp hbyte with hbyte | rfl
    · rw [List.getElem?_set_ne (by omega)]
      exact h.coded byte hbyte
    · rw [List.getElem?_set_self (h.length_symbols ▸ hposition), if_pos hmem]
  empty byte hle hbyte := by
    show (m.symbols.set position _)[byte]? = _
    rw [List.getElem?_set_ne (by omega)]
    exact h.empty byte (by omega) hbyte

end

/-! ## The loop -/

section

variable {e : EncodeState ρ ω} {rates : List ℕ} {histogram : HufHistogram}

/-- One iteration of `__huf_create_char_coding`. -/
theorem createCoding_eq (hbuilt : Built rates ⟨e.tree.tree, histogram, e.tree.heap⟩) {index : ℕ}
    (hindex : index < hufAsciiCount) (hcoded : CodedBelow rates index e.mapping) :
    ∃ mapping, createCoding index e.run = .ok (.ok (), { e with mapping }.run) ∧
      CodedBelow rates (index + 1) mapping := by
  have hget : Routine.within EncodeRun.huffmanTree Routine.get e.run =
      (.ok (.ok e.tree, e.run) : Outcome Fault HufError (EncodeRun ρ ω) TreeStore) :=
    EncodeState.within_tree rfl
  by_cases hmem : index ∈ Forest.counted rates
  · obtain ⟨p, hleaf, hstring⟩ := hbuilt.leaf index hindex hmem
    have hstring' : hufNodeToString e.tree.heap huf1kibBuffer (some p) =
        .ok ((hufCode rates index).reverse.map bitChar) := hstring
    have hinit : hufSymbolMappingElementInit ((hufCode rates index).reverse.map bitChar) [] =
        .ok (.ok (codeElement rates index), []) := by
      rw [codeElement, ← List.length_reverse, ← List.length_map (f := bitChar)]
      rfl
    have hposition : index < e.mapping.length := by rwa [hcoded.length]
    have hinsert := hufSymbolMappingInsert_eq hposition
      (by rw [hcoded.length, hcoded.length_symbols]) (codeElement rates index)
    refine ⟨_, ?_, hcoded.insert hindex hmem⟩
    rw [createCoding, Routine.bind_of_ok hget, load_of_getElem? hleaf,
      Routine.demand_ok_bind_apply, if_pos (Option.some_ne_none p), hstring',
      Routine.demand_ok_bind_apply,
      Routine.bind_of_ok (SelfRun.within_allocator hbuilt.allocations hinit),
      EncodeState.within_mapping hinsert]
  · refine ⟨e.mapping, ?_, hcoded.skip hindex hmem⟩
    rw [createCoding, Routine.bind_of_ok hget, load_of_getElem? (hbuilt.absent index hindex hmem),
      Routine.demand_ok_bind_apply, if_neg (not_not.mpr rfl)]
    rfl

/-- The code table holds the codes of the tree. -/
theorem hufCreateCharCoding_eq (hbuilt : Built rates ⟨e.tree.tree, histogram, e.tree.heap⟩)
    (hempty : e.mapping = emptyMapping) :
    ∃ mapping, hufCreateCharCoding e.run = .ok (.ok (), { e with mapping }.run) ∧
      CodedBelow rates hufAsciiCount mapping := by
  obtain ⟨s, hrun, mapping, rfl, hcoded⟩ := Routine.forM_range_rule hufAsciiCount
    (fun index s => ∃ mapping, s = { e with mapping }.run ∧ CodedBelow rates index mapping)
    (f := (createCoding : ℕ → CRoutine (EncodeRun ρ ω) Unit)) (s := e.run)
    (by
      rintro index hindex s ⟨mapping, rfl, hcoded⟩
      obtain ⟨mapping', hrun, hcoded'⟩ :=
        createCoding_eq (e := { e with mapping }) hbuilt hindex hcoded
      exact ⟨_, hrun, mapping', rfl, hcoded'⟩)
    ⟨e.mapping, rfl, hempty ▸ codedBelow_emptyMapping rates⟩
  refine ⟨mapping, ?_, hcoded⟩
  have hget : Routine.within EncodeRun.mapping Routine.get e.run =
      (.ok (.ok e.mapping, e.run) : Outcome Fault HufError (EncodeRun ρ ω) HufSymbolMapping) :=
    EncodeState.within_mapping rfl
  rw [hufCreateCharCoding, Routine.bind_of_ok hget, hempty]
  exact hrun

end

end LibHuffman
